/-
TinyTcp.Pkt.Coherence — the cursor over whole runs of all operations.

`CursorNames b` says that the three cursor members of a buffer name byte
number `m_pos` of its contents. Accesses, `alloc` and `reset_access` keep
it; the other operations keep it only in the states of `CursorSafe`, which
looks at the state before the call. `cursor_coherent_run` is the run
theorem: as long as every step is safe no call faults and every buffer in
use has such a cursor. `stale_after_header` shows what one unsafe step
does: after a header was put in front, the cursor names the byte it named
before, now under the wrong number, and a read returns the wrong bytes.
-/
import TinyTcp.Pkt.AccessRefinement
import TinyTcp.Pkt.Keeps

namespace TinyTcp.Pkt

open TinyTcp.Lib PktBuffer

/-! ## Coherence -/

/-- The cursor names byte number `m_pos`, an `int32_t`: within the contents
it is in a block of the list, at the address of that byte inside the
window, and at the end of the contents it is `end()`. -/
structure PktBuffer.CursorNames (b : PktBuffer) : Prop where
  nonneg : b.pos < 2 ^ 31
  le : b.pos ≤ b.capacity
  inside : b.pos < b.capacity → ∃ i blk k,
    b.curBlk = .at i ∧ b.blkList[i]? = some (some blk) ∧ b.blkOffset = some (blk.data + k) ∧
      k < blk.size ∧ b.pos = (content (b.blkList.take i).reduceOption).length + k ∧
      b.bytes[b.pos]? = blk.payload[blk.data + k]?
  atEnd : b.pos = b.capacity → b.curBlk = .done

theorem PktBuffer.Cursor.names {B : Nat} {b : PktBuffer} {blks : List PktBlock} {p : Nat}
    (h : b.Cursor B blks p) : b.CursorNames := by
  have hlt := h.lt
  have hle := h.here.le
  refine ⟨by rw [h.pos]; omega, by rw [h.pos]; exact h.le, fun hin => ?_, fun hend => ?_⟩
  · rw [h.pos, h.holds.capacity] at hin
    obtain ⟨pre, blk, post, k, hsplit, hk, hcur, hoff, hp⟩ := h.here.exists_inside hin
    have hok : ∀ blk' ∈ pre ++ blk :: post, blk'.Ok B := by
      rw [← hsplit]
      exact h.holds.ok
    have hlist : b.blkList = (pre ++ blk :: post).map some := by rw [h.holds.list, hsplit]
    have hpre : (content pre).length = sizes pre :=
      content_length fun b hb => hok b (List.mem_append_left _ hb)
    have htake : (b.blkList.take pre.length).reduceOption = pre := by
      rw [hlist, List.map_append, List.take_left' (List.length_map ..), reduceOption_map_some]
    refine ⟨pre.length, blk, k, hcur, by rw [hlist]; simp, hoff, hk, ?_, ?_⟩
    · rw [htake, hpre, h.pos, hp]
    · have hwin := (hok blk (by simp)).window_length
      rw [h.holds.bytes, h.pos, hsplit, hp, content_append, content_cons, ← hpre,
        List.getElem?_append_right (Nat.le_add_right _ _), Nat.add_sub_cancel_left,
        List.getElem?_append_left (by omega), PktBlock.window, slice, List.getElem?_take_of_lt hk,
        List.getElem?_drop]
  · rw [h.pos, h.holds.capacity] at hend
    subst hend
    exact h.here.done_of_end

/-! ## Safe steps -/

/-- What a call needs for the cursor to survive it, in the state before it:
the buffers are in use, the capacity stays below `2 ^ 31`, and for the
operations that move bytes the conditions of `HeaderKeeps`, `ResizeKeeps`
and `ContKeeps`. -/
def CursorSafe (s : World × Finset BufId) : Op → Prop
  | .alloc i size _ _ => i ∈ s.2 ∧ (s.1.bufs i).capacity + size < 2 ^ 31
  | .allocHeader i size isCont =>
      i ∈ s.2 ∧ (s.1.bufs i).capacity + size < 2 ^ 31 ∧
        HeaderKeeps s.1.mgr (s.1.bufs i) size isCont
  | .removeHeader i size => i ∈ s.2 ∧ (s.1.bufs i).blkList ≠ [] ∧ size = 0
  | .resize i size =>
      i ∈ s.2 ∧ 1 ≤ size ∧ (s.1.bufs i).capacity + size < 2 ^ 31 ∧
        ResizeKeeps s.1.mgr (s.1.bufs i) size
  | .mergeBuf i buf =>
      i ∈ s.2 ∧ buf ∈ s.2 ∧ i ≠ buf ∧
        (s.1.bufs i).capacity + (s.1.bufs buf).capacity < 2 ^ 31 ∧
        ((s.1.bufs i).pos < (s.1.bufs i).capacity ∨ (s.1.bufs buf).capacity = 0)
  | .setContHeader i size =>
      i ∈ s.2 ∧ (s.1.bufs i).blkList ≠ [] ∧ ContKeeps s.1.mgr (s.1.bufs i) size
  | .resetAccess i => i ∈ s.2
  | .seek i _ => i ∈ s.2
  | .read i dest size => i ∈ s.2 ∧ ∀ mem ∈ dest, size ≤ mem.length
  | .write i src size => i ∈ s.2 ∧ ∀ mem ∈ src, size ≤ mem.length
  | .fill i _ _ => i ∈ s.2
  | .copy i src _ => i ∈ s.2 ∧ src ∈ s.2 ∧ i ≠ src

instance (s : World × Finset BufId) : ∀ op, Decidable (CursorSafe s op)
  | .alloc .. => inferInstanceAs (Decidable (_ ∧ _))
  | .allocHeader .. => inferInstanceAs (Decidable (_ ∧ _ ∧ HeaderKeeps ..))
  | .removeHeader .. => inferInstanceAs (Decidable (_ ∧ _ ∧ _))
  | .resize .. => inferInstanceAs (Decidable (_ ∧ _ ∧ _ ∧ ResizeKeeps ..))
  | .mergeBuf .. => inferInstanceAs (Decidable (_ ∧ _ ∧ _ ∧ _ ∧ (_ ∨ _)))
  | .setContHeader .. => inferInstanceAs (Decidable (_ ∧ _ ∧ ContKeeps ..))
  | .resetAccess .. => inferInstanceAs (Decidable (_ ∈ _))
  | .seek .. => inferInstanceAs (Decidable (_ ∈ _))
  | .read .. => inferInstanceAs (Decidable (_ ∧ ∀ mem ∈ (_ : Option (List UInt8)), _))
  | .write .. => inferInstanceAs (Decidable (_ ∧ ∀ mem ∈ (_ : Option (List UInt8)), _))
  | .fill .. => inferInstanceAs (Decidable (_ ∈ _))
  | .copy .. => inferInstanceAs (Decidable (_ ∧ _ ∧ _))

/-- The state after a call that returns, successful or not. -/
def cursorNext (s : World × Finset BufId) (op : Op) : Option (World × Finset BufId) :=
  match s.1.step op with
  | .ok (_, w) => some (w, liveAfter s.2 op)
  | .error _ => none

/-- The run invariant: a usable free list, and a cursor in every buffer in use. -/
structure World.CursorInv (s : World × Finset BufId) : Prop where
  sound : s.1.mgr.Sound
  bufs : s.1.Coherent (· ∈ s.2)

/-- A safe step does not fault and keeps the invariant. -/
def SafeStep (s : World × Finset BufId) (op : Op) : Prop :=
  ∃ r w', s.1.step op = .ok (r, w') ∧ World.CursorInv (w', liveAfter s.2 op)

variable {w : World} {live : Finset BufId}

/-- A call of one buffer that leaves it `Kept`. -/
theorem SafeStep.of_kept (h : World.CursorInv (w, live)) {i : BufId} {op : Op} {r : Reply}
    {m : PktManager} {b : PktBuffer} (heq : w.step op = .ok (r, w.put m i b))
    (hk : Kept w.mgr m b) (hlive : liveAfter live op = live) : SafeStep (w, live) op := by
  refine ⟨r, _, heq, hk.sound, ?_⟩
  rw [hlive]
  intro j hj
  change ∃ blks p, ((w.put m i b).bufs j).Cursor m.blkSize blks p
  rw [hk.blkSize]
  by_cases hji : j = i
  · rw [hji, World.put_self]
    exact hk.cursor
  · rw [World.put_of_ne _ hji]
    exact h.bufs j hj

/-- Accesses keep the invariant, whatever they return. -/
theorem SafeStep.of_access (h : World.CursorInv (w, live)) {op : Op}
    (hop : Access (· ∈ live) op) (hlive : liveAfter live op = live) : SafeStep (w, live) op := by
  obtain ⟨r, w', heq, hmgr, hw', -⟩ := access_step h.bufs hop
  refine ⟨r, w', heq, ?_, ?_⟩
  · change w'.mgr.Sound
    rw [hmgr]
    exact h.sound
  · rw [hlive]
    exact hw'

theorem resetAccess_safe (h : World.CursorInv (w, live)) {i : BufId} (hi : i ∈ live) :
    SafeStep (w, live) (.resetAccess i) := by
  obtain ⟨blks, p, hcur⟩ := h.bufs i hi
  have hstep : w.step (.resetAccess i) =
      .ok (.unit, w.put w.mgr i ((w.bufs i).rewound blks)) := by
    simp only [World.step, resetAccess_eq hcur.holds.list, ok_bind]
    rfl
  exact .of_kept h hstep (Kept.same h.sound (hcur.holds.cursor_rewound hcur.lt)) rfl

theorem mergeBuf_safe (h : World.CursorInv (w, live)) {i buf : BufId} (hi : i ∈ live)
    (hbuf : buf ∈ live) (hlt : (w.bufs i).capacity + (w.bufs buf).capacity < 2 ^ 31)
    (hkeep : (w.bufs i).pos < (w.bufs i).capacity ∨ (w.bufs buf).capacity = 0) :
    SafeStep (w, live) (.mergeBuf i buf) := by
  obtain ⟨blks, p, hcur⟩ := h.bufs i hi
  obtain ⟨blks', p', hcur'⟩ := h.bufs buf hbuf
  have hmerged := merge_cursor hcur hcur'.holds hlt hkeep
  refine ⟨.err .ok, _, rfl, h.sound.withPktBuf _, ?_⟩
  intro j hj
  obtain ⟨hjb, hjl⟩ := Finset.mem_erase.mp hj
  simp only [World.putBuf_of_ne _ hjb]
  by_cases hji : j = i
  · rw [hji, World.put_self]
    exact ⟨_, p, hmerged⟩
  · rw [World.put_of_ne _ hji]
    exact h.bufs j hjl

theorem safe_step (h : World.CursorInv (w, live)) {op : Op} (hop : CursorSafe (w, live) op) :
    SafeStep (w, live) op := by
  cases op with
  | alloc i size f ins =>
    obtain ⟨blks, p, hcur⟩ := h.bufs i hop.1
    obtain ⟨ok, m, b, heq, hk⟩ := alloc_keeps h.sound hcur hop.2 f ins
    exact .of_kept h (World.step_alloc heq) hk rfl
  | allocHeader i size isCont =>
    obtain ⟨blks, p, hcur⟩ := h.bufs i hop.1
    obtain ⟨e, m, b, heq, hk⟩ := allocHeader_keeps h.sound hcur hop.2.1 isCont hop.2.2
    exact .of_kept h (World.step_allocHeader heq) hk rfl
  | removeHeader i size =>
    obtain ⟨hi, hne, rfl⟩ := hop
    obtain ⟨blks, p, hcur⟩ := h.bufs i hi
    obtain ⟨e, m, b, heq, hk⟩ := removeHeader_keeps h.sound hcur hne
    exact .of_kept h (World.step_removeHeader heq) hk rfl
  | resize i size =>
    obtain ⟨blks, p, hcur⟩ := h.bufs i hop.1
    obtain ⟨e, m, b, heq, hk⟩ := resize_keeps h.sound hcur i hop.2.1 hop.2.2.1 hop.2.2.2
    exact .of_kept h (World.step_resize heq) hk rfl
  | mergeBuf i buf => exact mergeBuf_safe h hop.1 hop.2.1 hop.2.2.2.1 hop.2.2.2.2
  | setContHeader i size =>
    obtain ⟨blks, p, hcur⟩ := h.bufs i hop.1
    obtain ⟨e, m, b, heq, hk⟩ := setContHeader_keeps h.sound hcur hop.2.1 hop.2.2
    exact .of_kept h (World.step_setContHeader heq) hk rfl
  | resetAccess i => exact resetAccess_safe h hop
  | seek i offset => exact .of_access h hop rfl
  | read i dest size => exact .of_access h hop rfl
  | write i src size => exact .of_access h hop rfl
  | fill i v size => exact .of_access h hop rfl
  | copy i src size => exact .of_access h hop rfl

/-! ## Runs -/

/-- After a successful `seek(k)`, a read of `n` bytes returns the bytes from `k` on. -/
def PktBuffer.SeekReads (b : PktBuffer) : Prop :=
  ∀ k b', b.seek k = .ok (.ok, b') → ∀ n (dest : List UInt8), 0 < n → k + n ≤ b.capacity →
    n ≤ dest.length →
    ∃ b'', b'.read (some dest) n = .ok (.ok, some (splice dest 0 (slice b.bytes k n)), b'')

theorem PktBuffer.Cursor.seekReads {B : Nat} {b : PktBuffer} {blks : List PktBlock} {p : Nat}
    (h : b.Cursor B blks p) : b.SeekReads := by
  intro k b' hseek n dest hpos hfit hdest
  obtain ⟨b₁, heq, hcur, -⟩ := seek_ok h (show k ≤ b.capacity by omega)
  rw [heq] at hseek
  obtain rfl : b₁ = b' := by simpa using hseek
  rw [h.holds.capacity] at hfit
  obtain ⟨b'', hread, -, -⟩ := read_ok hcur hdest hpos (by omega)
  rw [h.holds.bytes]
  exact ⟨b'', hread⟩

/-- A run whose steps are all safe never faults, and in the state it
reaches every buffer in use has a cursor that names byte `m_pos`. -/
theorem cursor_coherent_run (hmgr : w.mgr.Sound)
    (hstart : ∀ i ∈ live, (w.bufs i).JustReset w.mgr.blkSize) (ops : List Op)
    (hsafe : Along cursorNext CursorSafe (w, live) ops) :
    ∃ w' live', run cursorNext (w, live) ops = some (w', live') ∧
      ∀ i ∈ live', (w'.bufs i).CursorNames ∧ (w'.bufs i).SeekReads := by
  have hinv : World.CursorInv (w, live) := by
    refine ⟨hmgr, fun i hi => ?_⟩
    obtain ⟨blks, hcur⟩ := JustReset.cursor (hstart i hi)
    exact ⟨blks, 0, hcur⟩
  have hstep : ∀ (s : World × Finset BufId) op, World.CursorInv s → CursorSafe s op →
      ∃ s', cursorNext s op = some s' ∧ World.CursorInv s' := by
    rintro ⟨w₁, live₁⟩ op hs hop
    obtain ⟨r, w₂, heq, hinv₂⟩ := safe_step hs hop
    exact ⟨(w₂, liveAfter live₁ op), by simp only [cursorNext, heq], hinv₂⟩
  obtain ⟨⟨w', live'⟩, hrun, hinv'⟩ := run_progress hstep ops (w, live) hinv hsafe
  refine ⟨w', live', hrun, fun i hi => ?_⟩
  obtain ⟨blks, p, hcur⟩ := hinv'.bufs i hi
  exact ⟨hcur.names, hcur.seekReads⟩

/-- A pool of four blocks of eight bytes. -/
def resetBlocks : List PktBlock :=
  (List.range 4).map fun a => ⟨a, 0, 0, [9, 9, 9, 9, 9, 9, 9, 9]⟩

/-- Two packets without blocks, their cursors reset. -/
def resetPackets : World where
  mgr := { blkSize := 8, pktBlk := ⟨4, resetBlocks.map some⟩, pktBuf := ⟨2, []⟩ }
  bufs _ := { PktBuffer.new with curBlk := .done }

def someSafeCalls : List Op :=
  [.alloc 0 12 false false, .alloc 1 4 true false, .write 0 (some [1, 2, 3]) 3, .seek 0 1,
    .resize 0 11, .mergeBuf 0 1, .setContHeader 0 8, .allocHeader 0 4 false, .resetAccess 0,
    .seek 0 5, .read 0 (some [0, 0]) 2]

theorem cursor_coherent_run_two_packets :
    ∃ w' live', run cursorNext (resetPackets, {0, 1}) someSafeCalls = some (w', live') ∧
      ∀ i ∈ live', (w'.bufs i).CursorNames ∧ (w'.bufs i).SeekReads := by
  have hmgr : resetPackets.mgr.Sound :=
    ⟨by decide, by decide, ⟨resetBlocks, rfl, by decide⟩, by decide⟩
  exact cursor_coherent_run hmgr
    (fun i _ => ⟨[], ⟨rfl, by simp, rfl, by decide⟩, by decide, rfl⟩) someSafeCalls (by decide)

/-- Four bytes in a packet, the cursor at byte 1, two header bytes put in front. -/
def staleCalls : List Op :=
  [.alloc 0 4 true false, .write 0 (some [1, 2, 3, 4]) 4, .seek 0 1, .allocHeader 0 2 true]

/-- The packet after these calls: the pointer is at byte 3, and `m_pos` is 1. -/
def stalePacket : PktBuffer where
  capacity := 6
  blkList := [some ⟨0, 6, 2, [9, 9, 9, 9, 1, 2, 3, 4]⟩]
  pos := 1
  curBlk := .at 0
  blkOffset := some 5
  ref := 1

theorem stale_after_header :
    (∃ w', tryTrace World.step resetPackets staleCalls =
        .ok ([.bool true, .err .ok, .err .ok, .err .ok], w') ∧ w'.bufs 0 = stalePacket) ∧
      ¬ stalePacket.CursorNames ∧ ¬ stalePacket.SeekReads := by
  refine ⟨⟨_, rfl, rfl⟩, fun h => ?_, fun h => ?_⟩
  · obtain ⟨i, blk, k, hcur, hblk, hoff, -, hpos, -⟩ := h.inside (by decide)
    obtain rfl : 0 = i := by simpa [stalePacket] using hcur
    obtain rfl : PktBlock.mk 0 6 2 [9, 9, 9, 9, 1, 2, 3, 4] = blk := by
      simpa [stalePacket] using hblk
    have hk : 5 = 2 + k := by simpa [stalePacket] using hoff
    have hzero : 1 = 0 + k := hpos
    omega
  · -- byte 1 of the packet is 9, the read returns byte 3, which is 2
    obtain ⟨b, hread⟩ := h 1 stalePacket rfl 1 [0] (by decide) (by decide) (by decide)
    have hdest : (stalePacket.read (some [0]) 1).map (·.2.1) = .ok (some [9]) := by
      rw [hread]
      rfl
    exact absurd hdest (by decide)

end TinyTcp.Pkt
