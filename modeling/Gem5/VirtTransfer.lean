/-
# Transfers along a descriptor chain

On a finite chain the loops of `chainSize`, `chainRead` and `chainWrite` end within its descriptors.
Both transfers carry an offset that the descriptors they skip use up, and take from the first one
they reach only what lies behind it; together these pieces are a window of the buffers laid one
behind the other.
-/
import Gem5.VirtChains

namespace Gem5.Virtio

open Runs Loop

/-! ## Writing bytes -/

theorem store_append (mem : GuestBytes) (ws ws' : List (ℕ × UInt8)) :
    store mem (ws ++ ws') = store (store mem ws) ws' := List.foldl_append

theorem store_of_notMem {addrs : List ℕ} {src : List UInt8} {mem : GuestBytes} {a : ℕ}
    (ha : a ∉ addrs.take src.length) : store mem (addrs.zip src) a = mem a := by
  induction addrs generalizing src mem with
  | nil => rfl
  | cons b addrs ih =>
    cases src with
    | nil => rfl
    | cons v src =>
      simp only [List.length_cons, List.take_succ_cons, List.mem_cons, not_or] at ha
      exact (ih ha.2).trans (Function.update_of_ne ha.1 ..)

theorem map_store {addrs : List ℕ} {src : List UInt8} (mem : GuestBytes) (hnodup : addrs.Nodup)
    (hlen : src.length ≤ addrs.length) :
    (addrs.take src.length).map (store mem (addrs.zip src)) = src := by
  induction addrs generalizing src mem with
  | nil => simpa using (List.length_eq_zero_iff.mp (Nat.le_zero.mp hlen)).symm
  | cons b addrs ih =>
    cases src with
    | nil => rfl
    | cons v src =>
      obtain ⟨hb, hnodup⟩ := List.nodup_cons.mp hnodup
      -- The first address does not come again, so its byte stays.
      have hkeep : store (Function.update mem b v) (addrs.zip src) b = v :=
        (store_of_notMem fun h => hb (List.mem_of_mem_take h)).trans (Function.update_self ..)
      simp only [List.length_cons, List.take_succ_cons, List.map_cons]
      exact congrArg₂ _ hkeep (ih _ hnodup (Nat.le_of_succ_le_succ hlen))

theorem zip_append_drop {α β : Type*} (xs ys : List α) (zs : List β) :
    (xs ++ ys).zip zs = xs.zip zs ++ ys.zip (zs.drop xs.length) := by
  induction xs generalizing zs with
  | nil => rfl
  | cons x xs ih =>
    cases zs with
    | nil => simp
    | cons z zs => simp [ih]

theorem zip_append_right {α β : Type*} (xs : List α) (ys zs : List β) :
    xs.zip (ys ++ zs) = xs.zip ys ++ (xs.drop ys.length).zip zs := by
  simpa using congrArg (List.map Prod.swap) (zip_append_drop ys zs xs)

/-! ## Buffers -/

/-- The number of bytes of the buffers. -/
def total (ds : List VringDesc) : ℕ := (ds.map VringDesc.len).sum

/-- The addresses of the bytes of the buffers, one behind the other. -/
def buffers (ds : List VringDesc) : List ℕ := ds.flatMap fun d => cells d.addr d.len

@[simp] theorem length_cells (addr size : ℕ) : (cells addr size).length = size := by simp [cells]

@[simp] theorem total_cons (d : VringDesc) (ds : List VringDesc) :
    total (d :: ds) = d.len + total ds := by simp [total]

@[simp] theorem buffers_cons (d : VringDesc) (ds : List VringDesc) :
    buffers (d :: ds) = cells d.addr d.len ++ buffers ds := by simp [buffers]

@[simp] theorem length_buffers (ds : List VringDesc) : (buffers ds).length = total ds := by
  induction ds with
  | nil => rfl
  | cons d ds ih => simp [ih]

theorem cells_window (addr : ℕ) {offset size len : ℕ} (h : offset + size ≤ len) :
    cells (addr + offset) size = ((cells addr len).drop offset).take size := by
  apply List.ext_getElem
  · simp
    omega
  · intro k _ _
    simp [cells, Nat.add_assoc]

namespace DescTable

variable {t : DescTable} {mem : GuestBytes} {d : VringDesc} {rest : List VringDesc} {fuel : ℕ}

/-! ## Loops along a chain -/

/-- **A loop along a finite chain ends.**  Each round ends the loop or goes to the next descriptor,
if that is in the queue. -/
theorem Chain.loop_ends {σ β : Type} {body : σ → σ ⊕ β} (desc : σ → VringDesc) {Q : β → Prop}
    (hround : ∀ s, (∀ i, (desc s).next = some i → ∃ e, t.descriptors[i]? = some e) →
      (∃ b, body s = .inr b ∧ Q b) ∨ ∃ s' i, (desc s).next = some i ∧
        t.descriptors[i]? = some (desc s') ∧ body s = .inl s')
    {s : σ} (h : t.Chain (desc s) rest) :
    ∃ b, loop body (rest.length + 1) s = some b ∧ Q b := by
  induction rest generalizing s with
  | nil =>
    have hlast : (desc s).next = none := h
    rcases hround s (by simp [hlast]) with ⟨b, hb, hQ⟩ | ⟨s', i, hi, -⟩
    · exact ⟨b, loop_inr hb 0, hQ⟩
    · cases hlast.symm.trans hi
  | cons e rest ih =>
    obtain ⟨i, hi, he, hc⟩ := h
    have hin : ∀ j, (desc s).next = some j → ∃ e, t.descriptors[j]? = some e := by
      intro j hj
      exact ⟨e, Option.some.inj (hi.symm.trans hj) ▸ he⟩
    rcases hround s hin with ⟨b, hb, hQ⟩ | ⟨s', j, hj, he', hs⟩
    · exact ⟨b, loop_inr hb _, hQ⟩
    · obtain rfl := Option.some.inj (hi.symm.trans hj)
      obtain rfl := Option.some.inj (he.symm.trans he')
      obtain ⟨b, hb, hQ⟩ := ih hc
      exact ⟨b, (loop_inl hs _).trans hb, hQ⟩

theorem readRound_ends (mem : GuestBytes) {s : ReadState} (h : t.Chain s.desc rest) :
    ∃ b, loop (readRound t mem) (rest.length + 1) s = some b ∧ b ≠ .error .noDescriptor := by
  apply Chain.loop_ends ReadState.desc _ h
  intro s hin
  have hsafe : s.chunk mem ≠ .error .noDescriptor := by
    unfold ReadState.chunk
    split_ifs
    · cases hi : s.desc.isIncoming <;> simp [VringDesc.read, hi, require] <;> rintro ⟨⟩
    · rintro ⟨⟩
  cases hc : s.chunk mem with
  | error e =>
    exact .inl ⟨.error e, by simp only [readRound, hc], hc ▸ hsafe⟩
  | ok s' =>
    cases hn : s.desc.next with
    | none => exact .inl ⟨.ok s', by simp only [readRound, hc, hn], by simp⟩
    | some i =>
      obtain ⟨e, he⟩ := hin i hn
      have hround : readRound t mem s = if e.isIncoming && 0 < s'.size then
          .inl { s' with desc := e } else .inr (.ok s') := by
        simp only [readRound, hc, hn, he]
      by_cases hgo : (e.isIncoming && 0 < s'.size) = true
      · exact .inr ⟨_, i, rfl, he, hround.trans (if_pos hgo)⟩
      · exact .inl ⟨_, hround.trans (if_neg hgo), by simp⟩

theorem writeRound_ends {s : WriteState} (h : t.Chain s.desc rest) :
    ∃ b, loop (writeRound t) (rest.length + 1) s = some b ∧ b ≠ .error .noDescriptor := by
  apply Chain.loop_ends WriteState.desc _ h
  intro s hin
  have hsafe : s.chunk ≠ .error .noDescriptor := by
    unfold WriteState.chunk
    split_ifs
    · cases ho : s.desc.isOutgoing <;> simp [VringDesc.write, ho, require] <;> rintro ⟨⟩
    · rintro ⟨⟩
  cases hc : s.chunk with
  | error e =>
    exact .inl ⟨.error e, by simp only [writeRound, hc], hc ▸ hsafe⟩
  | ok s' =>
    cases hn : s.desc.next with
    | none => exact .inl ⟨.ok s', by simp only [writeRound, hc, hn], by simp⟩
    | some i =>
      obtain ⟨e, he⟩ := hin i hn
      have hround : writeRound t s = if s'.src = [] then .inr (.ok s')
          else .inl { s' with desc := e } := by
        simp only [writeRound, hc, hn, he]
      by_cases hsrc : s'.src = []
      · exact .inl ⟨_, hround.trans (if_pos hsrc), by simp⟩
      · exact .inr ⟨_, i, rfl, he, hround.trans (if_neg hsrc)⟩

theorem chainSize_eq (h : t.Chain d rest) (hfuel : rest.length < fuel) :
    t.chainSize fuel d = some (.ok (total (d :: rest))) := by
  have hloop : ∀ n, loop (sizeRound t) (rest.length + 1) (d, n) =
      some (.ok (n + total (d :: rest))) := by
    clear hfuel
    induction rest generalizing d with
    | nil =>
      intro n
      apply loop_inr
      simp only [sizeRound, show d.next = none from h, total_cons]
      rfl
    | cons e rest ih =>
      intro n
      obtain ⟨i, hi, he, hc⟩ := h
      have hround : sizeRound t (d, n) = .inl (e, n + d.len) := by simp only [sizeRound, hi, he]
      rw [loop_inl hround, List.length_cons, ih hc, total_cons d, Nat.add_assoc]
  rw [← Nat.zero_add (total _)]
  exact loop_mono hfuel (hloop 0)

/-- **The loops along a returned chain end.**  On a chain that `updateChain` returned, whatever its
flags and lengths and whatever the offset, the three loops end within as many rounds as the queue
has descriptors and never leave the queue. -/
theorem returned_chain_ends {this : ℕ} {t' : DescTable} (hthis : this < t.descriptors.length)
    (h : ∃ fuel, t.updateChain mem fuel this = some (.ok t')) :
    ∃ d, t'.descriptors[this]? = some d ∧ ∀ fuel, t'.descriptors.length ≤ fuel →
      (∃ n, t'.chainSize fuel d = some (.ok n)) ∧
      (∀ mem' offset size, ∃ r, t'.chainRead mem' fuel d offset size = some r ∧
        r ≠ .error .noDescriptor) ∧
      ∀ mem' offset src, ∃ r, t'.chainWrite mem' fuel d offset src = some r ∧
        r ≠ .error .noDescriptor := by
  obtain ⟨d, rest, hd, hc, hlen⟩ := chain_of_updateChain hthis h
  refine ⟨d, hd, fun fuel hfuel => ?_⟩
  have hlt : rest.length < fuel := by omega
  have hsize := chainSize_eq hc hlt
  refine ⟨⟨_, hsize⟩, ?_, ?_⟩
  · intro mem' offset size
    obtain ⟨b, hb, hsafe⟩ := readRound_ends mem' (s := ⟨d, offset, size, []⟩) hc
    simp only [chainRead, loop_mono hlt hb, hsize]
    cases b with
    | error e => exact ⟨_, rfl, by simpa using hsafe⟩
    | ok s =>
      dsimp only
      split_ifs <;> exact ⟨_, rfl, nofun⟩
  · intro mem' offset src
    obtain ⟨b, hb, hsafe⟩ := writeRound_ends (s := ⟨d, offset, src, mem'⟩) hc
    simp only [chainWrite, loop_mono hlt hb, hsize]
    cases b with
    | error e => exact ⟨_, rfl, by simpa using hsafe⟩
    | ok s =>
      dsimp only
      split_ifs <;> exact ⟨_, rfl, nofun⟩

/-- Two buffers, of two and of three bytes. -/
def twoBuffers (flags : ℕ) : DescTable :=
  ⟨0x1000, .little, [⟨100, 2, 1 + flags, 1⟩, ⟨200, 3, flags, 0⟩]⟩

/-- The same two descriptors in guest memory. -/
def twoBuffersMem (flags : UInt8) : GuestBytes := fun a =>
  (List.lookup a [(0x1000, 100), (0x1008, 2), (0x100c, 1 + flags), (0x100e, 1), (0x1010, 200),
    (0x1018, 3), (0x101c, flags)]).getD 0

theorem returned_chain_ends_twoBuffers :
    ((∃ n, (twoBuffers 0).chainSize 2 ⟨100, 2, 1, 1⟩ = some (.ok n)) ∧
      ∃ r, (twoBuffers 0).chainRead (twoBuffersMem 0) 2 ⟨100, 2, 1, 1⟩ 1 3 = some r ∧
        r ≠ .error .noDescriptor) ∧
    ∃ r, (twoBuffers 2).chainWrite (twoBuffersMem 2) 2 ⟨100, 2, 3, 1⟩ 1 [7, 8] = some r ∧
      r ≠ .error .noDescriptor := by
  let stale : DescTable := ⟨0x1000, .little, List.replicate 2 ⟨0, 0, 0, 0⟩⟩
  have hread : stale.updateChain (twoBuffersMem 0) 2 0 = some (.ok (twoBuffers 0)) := by
    decide +kernel
  have hwrite : stale.updateChain (twoBuffersMem 2) 2 0 = some (.ok (twoBuffers 2)) := by
    decide +kernel
  obtain ⟨d, hd, hends⟩ := returned_chain_ends Nat.two_pos ⟨2, hread⟩
  obtain ⟨e, he, hends'⟩ := returned_chain_ends Nat.two_pos ⟨2, hwrite⟩
  cases hd
  cases he
  exact ⟨⟨(hends 2 le_rfl).1, (hends 2 le_rfl).2.1 _ 1 3⟩, (hends' 2 le_rfl).2.2 _ 1 _⟩

/-! ## Reading -/

/-- The variables of `chainRead` behind a descriptor that it may read. -/
def afterRead (s : ReadState) (mem : GuestBytes) : ReadState :=
  { s with
    offset := s.offset - s.desc.len
    size := s.size - (s.desc.len - s.offset)
    dst := s.dst ++ (((cells s.desc.addr s.desc.len).drop s.offset).map mem).take s.size }

theorem chunk_read {s : ReadState} (hin : s.desc.isIncoming = true) :
    s.chunk mem = .ok (afterRead s mem) := by
  obtain ⟨d, offset, size, dst⟩ := s
  unfold ReadState.chunk afterRead
  by_cases h : offset < d.len
  · have hread : d.read mem offset (min (d.len - offset) size) =
        .ok ((((cells d.addr d.len).drop offset).map mem).take size) := by
      refine bind_eq_ok.mpr ⟨(), require_ok (decide_eq_true (by omega)),
        bind_eq_ok.mpr ⟨(), require_ok hin, ?_⟩⟩
      rw [readBlob, cells_window d.addr (show offset + min _ _ ≤ d.len by omega), List.map_take]
      exact congrArg Except.ok (List.take_eq_take_iff.mpr (by simp; omega))
    simp only [if_pos h, hread]
    refine congrArg Except.ok ?_
    simp only [ReadState.mk.injEq, true_and, and_true]
    constructor <;> omega
  · -- A skipped descriptor gives no bytes and uses up its length of the offset.
    have hcells : (cells d.addr d.len).drop offset = [] :=
      List.drop_eq_nil_of_le (by rw [length_cells]; omega)
    rw [if_neg h, hcells]
    simp [Nat.sub_eq_zero_of_le (Nat.le_of_not_lt h)]
    rfl

/-- The descriptors that `chainRead` reads from: those up to the first one it may not read. -/
def readable (ds : List VringDesc) : List VringDesc := ds.takeWhile VringDesc.isIncoming

/-- What `chainRead` has done at the end of its loop. -/
def HasRead (s s' : ReadState) (mem : GuestBytes) (ds : List VringDesc) : Prop :=
  s'.size = s.size - (total ds - s.offset) ∧
    s'.dst = s.dst ++ (((buffers ds).drop s.offset).map mem).take s.size ∧
    (s'.size ≠ 0 → s'.offset = s.offset - total ds)

theorem hasRead_cons {s s' : ReadState} {e : VringDesc} {ds : List VringDesc}
    (h : HasRead { afterRead s mem with desc := e } s' mem ds) :
    HasRead s s' mem (s.desc :: ds) := by
  obtain ⟨hsize, hdst, hoffset⟩ := h
  refine ⟨?_, ?_, ?_⟩
  · rw [hsize, total_cons]
    simp only [afterRead]
    omega
  · rw [hdst, buffers_cons, List.drop_append, List.map_append, List.take_append]
    simp [afterRead]
  · intro h0
    rw [hoffset h0, total_cons]
    simp only [afterRead]
    omega

theorem hasRead_last {s : ReadState} {ds : List VringDesc}
    (h : ds = [] ∨ (afterRead s mem).size = 0) :
    HasRead s (afterRead s mem) mem (s.desc :: ds) := by
  apply hasRead_cons (e := s.desc)
  rcases h with rfl | h
  · simp [HasRead, total, buffers]
  · refine ⟨?_, ?_, fun h0 => absurd h h0⟩
    · simp [h]
    · simp [h]

theorem readRound_loop (mem : GuestBytes) {s : ReadState} (h : t.Chain s.desc rest)
    (hin : s.desc.isIncoming = true) :
    ∃ s', loop (readRound t mem) (rest.length + 1) s = some (.ok s') ∧
      HasRead s s' mem (readable (s.desc :: rest)) := by
  rw [readable, List.takeWhile_cons_of_pos hin]
  induction rest generalizing s with
  | nil =>
    have hround : readRound t mem s = .inr (.ok (afterRead s mem)) := by
      simp only [readRound, chunk_read hin, show s.desc.next = none from h]
    exact ⟨_, loop_inr hround _, hasRead_last (.inl rfl)⟩
  | cons e rest ih =>
    obtain ⟨i, hi, he, hc⟩ := h
    have hround : readRound t mem s = if e.isIncoming && 0 < (afterRead s mem).size
        then .inl { afterRead s mem with desc := e } else .inr (.ok (afterRead s mem)) := by
      simp only [readRound, chunk_read hin, hi, he]
    cases he : e.isIncoming with
    | false =>
      -- The loop ends before a descriptor that it may not read, whatever is left.
      rw [he, Bool.false_and, if_neg Bool.false_ne_true] at hround
      have hnil : readable (e :: rest) = [] := List.takeWhile_cons_of_neg (by simp [he])
      exact ⟨_, loop_inr hround _, hasRead_last (.inl hnil)⟩
    | true =>
      rw [he, Bool.true_and] at hround
      by_cases hsize : 0 < (afterRead s mem).size
      · rw [if_pos (decide_eq_true hsize)] at hround
        obtain ⟨s', hs', hread⟩ := ih (s := { afterRead s mem with desc := e }) hc he
        rw [← List.takeWhile_cons_of_pos he] at hread
        exact ⟨s', (loop_inl hround _).trans hs', hasRead_cons hread⟩
      · rw [if_neg (by simpa using hsize)] at hround
        exact ⟨_, loop_inr hround _, hasRead_last (.inr (by omega))⟩

/-- **`chainRead` is byte exact.**  From a descriptor that it may read it returns the window
`[offset, offset + size)` of the readable buffers if they hold it, and panics otherwise. -/
theorem chainRead_exact (h : t.Chain d rest) (hin : d.isIncoming = true)
    (hfuel : rest.length < fuel) (offset size : ℕ) :
    t.chainRead mem fuel d offset size = some
      (if size = 0 ∨ offset + size ≤ total (readable (d :: rest)) then
        .ok ((((buffers (readable (d :: rest))).drop offset).take size).map mem)
      else .error (.readFailed size (total (d :: rest))
        (offset - total (readable (d :: rest))))) := by
  obtain ⟨s, hs, hsize, hdst, hoffset⟩ :=
    readRound_loop mem (s := ⟨d, offset, size, []⟩) h hin
  dsimp only at hsize hdst hoffset
  simp only [chainRead, loop_mono hfuel hs]
  by_cases h0 : s.size = 0
  · rw [if_pos h0, if_pos (by omega), hdst, List.nil_append, List.map_take]
  · rw [if_neg h0, if_neg (by omega), chainSize_eq h hfuel, hoffset h0]
    rfl

theorem chainRead_exact_twoBuffers :
    (twoBuffers 0).chainRead (fun a => UInt8.ofNat a) 2 ⟨100, 2, 1, 1⟩ 1 3 =
      some (.ok [101, 200, 201]) := by
  have hchain : (twoBuffers 0).Chain ⟨100, 2, 1, 1⟩ [⟨200, 3, 0, 0⟩] := ⟨1, rfl, rfl, rfl⟩
  exact (chainRead_exact hchain rfl (by decide) 1 3).trans (by decide +kernel)

/-! ## Writing -/

/-- The variables of `chainWrite` behind a descriptor that it may write or skips. -/
def afterWrite (s : WriteState) : WriteState :=
  { s with
    offset := s.offset - s.desc.len
    src := s.src.drop (s.desc.len - s.offset)
    mem := store s.mem (((cells s.desc.addr s.desc.len).drop s.offset).zip s.src) }

theorem chunk_write {s : WriteState} (hs : s.desc.isOutgoing = true ∨ s.desc.len ≤ s.offset) :
    s.chunk = .ok (afterWrite s) := by
  obtain ⟨d, offset, src, mem⟩ := s
  unfold WriteState.chunk afterWrite
  by_cases h : offset < d.len
  · have hwrite : d.write mem offset (src.take (min (d.len - offset) src.length)) =
        .ok (store mem (((cells d.addr d.len).drop offset).zip src)) := by
      have hlen : (src.take (min (d.len - offset) src.length)).length =
          min (d.len - offset) src.length := by simp
      refine bind_eq_ok.mpr ⟨(), require_ok (decide_eq_true (by omega)),
        bind_eq_ok.mpr ⟨(), require_ok (hs.resolve_right (Nat.not_le_of_lt h)), ?_⟩⟩
      rw [writeBlob, hlen, cells_window d.addr (show offset + min _ _ ≤ d.len by omega),
        List.zip_eq_zipWith, ← List.take_zipWith, List.take_of_length_le (by simp)]
      rfl
    simp only [if_pos h, hwrite]
    refine congrArg Except.ok ?_
    simp only [WriteState.mk.injEq, true_and, and_true]
    exact ⟨by omega, List.drop_eq_drop_iff.mpr (by omega)⟩
  · have hcells : (cells d.addr d.len).drop offset = [] :=
      List.drop_eq_nil_of_le (by rw [length_cells]; omega)
    rw [if_neg h, hcells]
    simp [Nat.sub_eq_zero_of_le (Nat.le_of_not_lt h), store]
    rfl

/-- Every descriptor that holds bytes from `offset` on may be written. -/
def Writable : List VringDesc → ℕ → Prop
  | [], _ => True
  | d :: ds, offset => (d.isOutgoing = true ∨ d.len ≤ offset) ∧ Writable ds (offset - d.len)

/-- What `chainWrite` has done at the end of its loop. -/
def HasWritten (s s' : WriteState) (ds : List VringDesc) : Prop :=
  s'.src = s.src.drop (total ds - s.offset) ∧
    s'.mem = store s.mem (((buffers ds).drop s.offset).zip s.src) ∧
    (s'.src ≠ [] → s'.offset = s.offset - total ds)

theorem hasWritten_cons {s s' : WriteState} {e : VringDesc} {ds : List VringDesc}
    (h : HasWritten { afterWrite s with desc := e } s' ds) : HasWritten s s' (s.desc :: ds) := by
  obtain ⟨hsrc, hmem, hoffset⟩ := h
  refine ⟨?_, ?_, ?_⟩
  · rw [hsrc, total_cons]
    simp only [afterWrite, List.drop_drop]
    exact congrArg (List.drop · _) (by omega)
  · rw [hmem, buffers_cons, List.drop_append, zip_append_drop, store_append]
    simp [afterWrite]
  · intro h0
    rw [hoffset h0, total_cons]
    simp only [afterWrite]
    omega

theorem hasWritten_last {s : WriteState} {ds : List VringDesc}
    (h : ds = [] ∨ (afterWrite s).src = []) : HasWritten s (afterWrite s) (s.desc :: ds) := by
  apply hasWritten_cons (e := s.desc)
  rcases h with rfl | h
  · simp [HasWritten, total, buffers, store]
  · refine ⟨?_, ?_, fun h0 => absurd h h0⟩
    · simp [h]
    · simp [h, store]

theorem writeRound_loop {s : WriteState} (h : t.Chain s.desc rest)
    (hw : Writable (s.desc :: rest) s.offset) :
    ∃ s', loop (writeRound t) (rest.length + 1) s = some (.ok s') ∧
      HasWritten s s' (s.desc :: rest) := by
  induction rest generalizing s with
  | nil =>
    have hround : writeRound t s = .inr (.ok (afterWrite s)) := by
      simp only [writeRound, chunk_write hw.1, show s.desc.next = none from h]
    exact ⟨_, loop_inr hround _, hasWritten_last (.inl rfl)⟩
  | cons e rest ih =>
    obtain ⟨i, hi, he, hc⟩ := h
    have hround : writeRound t s = if (afterWrite s).src = [] then .inr (.ok (afterWrite s))
        else .inl { afterWrite s with desc := e } := by
      simp only [writeRound, chunk_write hw.1, hi, he]
    by_cases hsrc : (afterWrite s).src = []
    · rw [if_pos hsrc] at hround
      exact ⟨_, loop_inr hround _, hasWritten_last (.inr hsrc)⟩
    · rw [if_neg hsrc] at hround
      obtain ⟨s', hs', hwritten⟩ := ih (s := { afterWrite s with desc := e }) hc hw.2
      exact ⟨s', (loop_inl hround _).trans hs', hasWritten_cons hwritten⟩

theorem chainWrite_eq (h : t.Chain d rest) {offset : ℕ} (hw : Writable (d :: rest) offset)
    (hfuel : rest.length < fuel) (mem : GuestBytes) (src : List UInt8) :
    t.chainWrite mem fuel d offset src = some
      (if src = [] ∨ offset + src.length ≤ total (d :: rest) then
        .ok (store mem (((buffers (d :: rest)).drop offset).zip src))
      else .error (.writeFailed src.length (total (d :: rest))
        (offset - total (d :: rest)))) := by
  obtain ⟨s, hs, hsrc, hmem, hoffset⟩ :=
    writeRound_loop (s := ⟨d, offset, src, mem⟩) h hw
  dsimp only at hsrc hmem hoffset
  have hnil : s.src = [] ↔ src = [] ∨ offset + src.length ≤ total (d :: rest) := by
    rw [hsrc, List.drop_eq_nil_iff, ← List.length_eq_zero_iff]
    omega
  simp only [chainWrite, loop_mono hfuel hs]
  by_cases h0 : s.src = []
  · rw [if_pos h0, if_pos (hnil.mp h0), hmem]
  · rw [if_neg h0, if_neg (h0 ∘ hnil.mpr), chainSize_eq h hfuel, hoffset h0]
    rfl

/-- **`chainWrite` is byte exact.**  If every descriptor it could reach may be written, the bytes
go to the window that begins at `offset` of all buffers and nowhere else, if the buffers hold it;
otherwise the call panics. -/
theorem chainWrite_exact (h : t.Chain d rest) {offset : ℕ} (hw : Writable (d :: rest) offset)
    (hfuel : rest.length < fuel) (src : List UInt8) :
    (src = [] ∨ offset + src.length ≤ total (d :: rest) →
      ∃ mem', t.chainWrite mem fuel d offset src = some (.ok mem') ∧
        (∀ a ∉ ((buffers (d :: rest)).drop offset).take src.length, mem' a = mem a) ∧
        ((buffers (d :: rest)).Nodup →
          (((buffers (d :: rest)).drop offset).take src.length).map mem' = src)) ∧
    (¬(src = [] ∨ offset + src.length ≤ total (d :: rest)) →
      t.chainWrite mem fuel d offset src = some
        (.error (.writeFailed src.length (total (d :: rest)) (offset - total (d :: rest))))) := by
  rw [chainWrite_eq h hw hfuel]
  constructor
  · intro hfits
    refine ⟨_, congrArg some (if_pos hfits), fun a ha => store_of_notMem ha, ?_⟩
    intro hnodup
    rcases hfits with rfl | hfits
    · rfl
    · refine map_store _ (hnodup.sublist (List.drop_sublist ..)) ?_
      rw [List.length_drop, length_buffers]
      omega
  · intro hfits
    exact congrArg some (if_neg hfits)

theorem Writable.mono {ds : List VringDesc} {m n : ℕ} (h : Writable ds m) (hmn : m ≤ n) :
    Writable ds n := by
  induction ds generalizing m n with
  | nil => trivial
  | cons d ds ih => exact ⟨h.1.imp_right hmn.trans', ih h.2 (Nat.sub_le_sub_right hmn _)⟩

/-- **A write in two pieces** leaves what the write of both leaves, also where buffers overlap. -/
theorem chainWrite_append (h : t.Chain d rest) {offset : ℕ} (hw : Writable (d :: rest) offset)
    (hfuel : rest.length < fuel) (src src' : List UInt8) (mem' : GuestBytes) :
    t.chainWrite mem fuel d offset (src ++ src') = some (.ok mem') ↔
      ∃ mid, t.chainWrite mem fuel d offset src = some (.ok mid) ∧
        t.chainWrite mid fuel d (offset + src.length) src' = some (.ok mem') := by
  have hok : ∀ {n : ℕ}, Writable (d :: rest) n → ∀ mem src mem',
      t.chainWrite mem fuel d n src = some (.ok mem') ↔
        (src = [] ∨ n + src.length ≤ total (d :: rest)) ∧
          store mem (((buffers (d :: rest)).drop n).zip src) = mem' := by
    intro n hn mem src mem'
    rw [chainWrite_eq h hn hfuel]
    split_ifs with hfits
    · simp only [hfits, true_and, Option.some.injEq, Except.ok.injEq]
    · simp only [hfits, false_and, iff_false]
      nofun
  have hfits : src ++ src' = [] ∨ offset + (src ++ src').length ≤ total (d :: rest) ↔
      (src = [] ∨ offset + src.length ≤ total (d :: rest)) ∧
        (src' = [] ∨ offset + src.length + src'.length ≤ total (d :: rest)) := by
    simp only [← List.length_eq_zero_iff, List.length_append]
    omega
  have hw' := hw.mono (Nat.le_add_right offset src.length)
  rw [hok hw, hfits, zip_append_right, store_append, List.drop_drop]
  constructor
  · rintro ⟨⟨h1, h2⟩, hmem⟩
    exact ⟨_, (hok hw ..).mpr ⟨h1, rfl⟩, (hok hw' ..).mpr ⟨h2, hmem⟩⟩
  · rintro ⟨mid, hmid, hlast⟩
    obtain ⟨h1, rfl⟩ := (hok hw ..).mp hmid
    obtain ⟨h2, hmem⟩ := (hok hw' ..).mp hlast
    exact ⟨⟨h1, h2⟩, hmem⟩

theorem twoBuffers_writable : (twoBuffers 2).Chain ⟨100, 2, 3, 1⟩ [⟨200, 3, 2, 0⟩] ∧
    Writable [⟨100, 2, 3, 1⟩, ⟨200, 3, 2, 0⟩] 1 :=
  ⟨⟨1, rfl, rfl, rfl⟩, .inl rfl, .inl rfl, trivial⟩

theorem chainWrite_exact_twoBuffers :
    ∃ mem', (twoBuffers 2).chainWrite (fun _ => 0) 2 ⟨100, 2, 3, 1⟩ 1 [7, 8] = some (.ok mem') ∧
      [101, 200].map mem' = [7, 8] := by
  obtain ⟨mem', hok, -, hbytes⟩ := (chainWrite_exact twoBuffers_writable.1 twoBuffers_writable.2
    Nat.one_lt_two [7, 8]).1 (.inr (by decide))
  exact ⟨mem', hok, hbytes (by decide)⟩

theorem chainWrite_append_twoBuffers : ∃ mid mem',
    (twoBuffers 2).chainWrite (fun _ => 0) 2 ⟨100, 2, 3, 1⟩ 1 [7] = some (.ok mid) ∧
      (twoBuffers 2).chainWrite mid 2 ⟨100, 2, 3, 1⟩ 2 [8] = some (.ok mem') := by
  obtain ⟨mem', hok⟩ : ∃ mem', (twoBuffers 2).chainWrite (fun _ => 0) 2 ⟨100, 2, 3, 1⟩ 1 [7, 8] =
    some (.ok mem') := ⟨_, rfl⟩
  obtain ⟨mid, h⟩ := (chainWrite_append twoBuffers_writable.1 twoBuffers_writable.2
    Nat.one_lt_two [7] [8] mem').mp hok
  exact ⟨mid, mem', h⟩

end DescTable

end Gem5.Virtio
