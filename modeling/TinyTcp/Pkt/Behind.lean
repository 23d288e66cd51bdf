/-
TinyTcp.Pkt.Behind — which accesses stay inside the packet.

The size checks of the accesses compare with `m_capacity - m_pos`, in
`uint32_t`, and their loops go on from the cursor. So an accepted access
stays inside the packet when `m_pos` is no larger than `m_capacity` and the
cursor is not further on than byte `m_pos`: `Behind`. `fills_iff` says that
nothing less will do.

`cursorByte` computes the byte the cursor is at. Accesses keep a buffer
`Behind`, and so does `alloc`; for the operations that move bytes or blocks
under the cursor there is a condition on the state before the call each.
-/
import TinyTcp.Pkt.Keeps
import TinyTcp.Pkt.Rounds

namespace TinyTcp.Pkt

open TinyTcp.Lib

namespace PktBuffer

/-! ## Where the cursor is -/

/-- The number of the byte the cursor is at, if it is in a window. -/
def cursorByte (b : PktBuffer) : Option Nat :=
  match b.curBlk, b.blkOffset with
  | .at i, some off =>
      match b.blkList[i]? with
      | some (some blk) =>
          if blk.data ≤ off ∧ off < blk.data + blk.size then
            some (sizes (b.blkList.take i).reduceOption + (off - blk.data))
          else none
      | _ => none
  | _, _ => none

variable {B : Nat} {b b' : PktBuffer} {blks blks' : List PktBlock} {q n : Nat}

theorem cursorByte_of_at (hlist : b.blkList = blks.map some) (h : At b.curBlk b.blkOffset blks q)
    (hlt : q < sizes blks) : b.cursorByte = some q := by
  obtain ⟨pre, blk, post, k, hsplit, hk, hcur, hoff, rfl⟩ := h.exists_inside hlt
  have hget : b.blkList[pre.length]? = some (some blk) := by
    rw [hlist, hsplit]
    simp
  have htake : (b.blkList.take pre.length).reduceOption = pre := by
    rw [hlist, hsplit, List.map_append, List.take_left' (List.length_map ..),
      reduceOption_map_some]
  simp only [cursorByte, hcur, hoff, hget, htake]
  rw [if_pos (by omega)]
  simp

theorem at_of_cursorByte (hlist : b.blkList = blks.map some) (h : b.cursorByte = some q) :
    q < sizes blks ∧ At b.curBlk b.blkOffset blks q := by
  unfold cursorByte at h
  split at h
  · rename_i i off hcur hoff
    split at h
    · rename_i blk hget
      split at h
      · rename_i hwin
        cases h
        rw [hlist, List.getElem?_map] at hget
        obtain ⟨blk', hblk, hsome⟩ := Option.map_eq_some_iff.mp hget
        cases hsome
        obtain ⟨hi, hblk⟩ := List.getElem?_eq_some_iff.mp hblk
        have hsplit : blks = blks.take i ++ blk :: blks.drop (i + 1) := by
          rw [← hblk, ← List.drop_eq_getElem_cons hi, List.take_append_drop]
        have htake : (b.blkList.take i).reduceOption = blks.take i := by
          rw [hlist, ← List.map_take, reduceOption_map_some]
        have hlen : (blks.take i).length = i := List.length_take_of_le (Nat.le_of_lt hi)
        have hoff' : some off = some (blk.data + (off - blk.data)) := by
          rw [Nat.add_sub_cancel' hwin.1]
        rw [htake]
        constructor
        · rw [congrArg sizes hsplit, sizes_append, sizes_cons]
          omega
        · rw [hcur, hoff]
          exact .inside (blks.take i) blk (blks.drop (i + 1)) (off - blk.data) hsplit (by omega)
            (by rw [hlen]) hoff'
      · cases h
    · cases h
  · cases h

/-- The cursor is not further on than byte `m_pos`, and `m_pos` not further
than the end; at the end the cursor does not count. -/
structure Behind (b : PktBuffer) : Prop where
  le : b.pos ≤ b.capacity
  cursor : b.pos < b.capacity → ∃ q ∈ b.cursorByte, q ≤ b.pos

/-- A well-formed buffer with such a cursor. -/
structure Steady (B : Nat) (b : PktBuffer) : Prop where
  holds : ∃ blks, b.Holds B blks
  behind : b.Behind

theorem Holds.steady (h : b.Holds B blks) (hle : b.pos ≤ b.capacity)
    (hcur : b.pos < b.capacity → ∃ q, q ≤ b.pos ∧ At b.curBlk b.blkOffset blks q) :
    b.Steady B := by
  refine ⟨⟨blks, h⟩, hle, fun hlt => ?_⟩
  obtain ⟨q, hq, hat⟩ := hcur hlt
  have hcap := h.capacity
  exact ⟨q, cursorByte_of_at h.list hat (by omega), hq⟩

/-- Before the end the cursor is in a window. -/
theorem Holds.spot (h : b.Holds B blks) (hb : b.Behind) (hlt : b.pos < b.capacity) :
    ∃ q, q ≤ b.pos ∧ b.Spot B blks q := by
  obtain ⟨q, hq, hle⟩ := hb.cursor hlt
  exact ⟨q, hle, h.list, h.ok, h.lt, (at_of_cursorByte h.list hq).2⟩

theorem Behind.totalBlkRemain (h : b.Behind) (hlt : b.capacity < 2 ^ 32) :
    b.totalBlkRemain = b.capacity - b.pos :=
  wrapSub_eq h.le (by omega)

/-! ## Accesses -/

/-- The buffer after a walk. -/
theorem Holds.steady_of_spot (h : b.Holds B blks) (hspot : b'.Spot B blks' q)
    (hsizes : sizes blks' = sizes blks) (hcap : b'.capacity = b.capacity) (hq : q ≤ b'.pos)
    (hle : b'.pos ≤ b.capacity) : b'.Steady B := by
  have hholds : b'.Holds B blks' := by
    refine ⟨hspot.list, hspot.ok, ?_, hspot.lt⟩
    rw [hcap, hsizes]
    exact h.capacity
  refine hholds.steady ?_ fun _ => ⟨q, hq, hspot.here⟩
  rw [hcap]
  exact hle

/-- An accepted loop over at least one byte goes through. -/
theorem Steady.walked {σ : Type} {touch : σ → Nat → PktBuffer → Except Fault (σ × PktBuffer)}
    {good : Nat → σ → Prop} (h : b.Steady B) (hserves : Serves B touch good) (hpos : n ≠ 0)
    (hremain : n ≤ b.totalBlkRemain) {s : σ} (hgood : good n s) :
    ∃ s' b', Walked touch n s b s' b' ∧ b'.Steady B := by
  obtain ⟨blks, hb⟩ := h.holds
  have hlt := hb.lt
  have hcap := hb.capacity
  rw [h.behind.totalBlkRemain hb.capacity_lt] at hremain
  obtain ⟨q, hq, hspot⟩ := hb.spot h.behind (by omega)
  obtain ⟨s', b', blks', hwalked, hspot', hsizes, hpos', hcap'⟩ :=
    hspot.walked hserves n (by omega) (by omega) hgood
  exact ⟨s', b', hwalked, hb.steady_of_spot hspot' hsizes hcap' (by omega) (by omega)⟩

theorem Steady.copyWalked {src : PktBuffer} (h : b.Steady B) (hsrc : src.Steady B) (hpos : n ≠ 0)
    (hremain : n ≤ b.totalBlkRemain) (hremain' : n ≤ src.totalBlkRemain) :
    ∃ b' src', CopyWalked n b src b' src' ∧ b'.Steady B ∧ src'.Steady B := by
  obtain ⟨blks, hb⟩ := h.holds
  obtain ⟨blks', hs⟩ := hsrc.holds
  have hlt := hb.lt
  have hcap := hb.capacity
  have hlt' := hs.lt
  have hcap' := hs.capacity
  rw [h.behind.totalBlkRemain hb.capacity_lt] at hremain
  rw [hsrc.behind.totalBlkRemain hs.capacity_lt] at hremain'
  obtain ⟨q, hq, hspot⟩ := hb.spot h.behind (by omega)
  obtain ⟨q', hq', hspot'⟩ := hs.spot hsrc.behind (by omega)
  obtain ⟨b', src', blks₁, hwalked, hspotd, hsizes, hposd, hcapd, hspots, hposs, hcaps⟩ :=
    hspot.copyWalked n hspot' (by omega) (by omega) (by omega) (by omega)
  exact ⟨b', src', hwalked, hb.steady_of_spot hspotd hsizes hcapd (by omega) (by omega),
    hs.steady_of_spot hspots rfl hcaps (by omega) (by omega)⟩

/-! What an access does that is not rejected by its checks. -/

def Seeks (b : PktBuffer) (offset : Nat) : Prop :=
  b.pos = offset ∨ b.capacity < offset ∨
    ∃ b₀ moveBytes b', b.seekStart offset = .ok (b₀, moveBytes) ∧
      Walked seekTouch moveBytes () b₀ () b'

def Fills (b : PktBuffer) (v : UInt8) (size : Nat) : Prop :=
  size = 0 ∨ b.totalBlkRemain < size ∨ ∃ b', Walked (fillTouch v) size () b () b'

def Writes (b : PktBuffer) (src : Option (List UInt8)) (size : Nat) : Prop :=
  size = 0 ∨ b.totalBlkRemain < size ∨
    ∀ mem ∈ src, ∃ mem' b', Walked writeTouch size mem b mem' b'

def Reads (b : PktBuffer) (dest : Option (List UInt8)) (size : Nat) : Prop :=
  size = 0 ∨ b.totalBlkRemain < size ∨
    ∀ mem ∈ dest, ∃ s b', Walked readTouch size (0, mem) b s b'

def Copies (dest src : PktBuffer) (size : Nat) : Prop :=
  dest.totalBlkRemain < size ∨ src.totalBlkRemain < size ∨
    ∃ dest' src', CopyWalked size dest src dest' src'

theorem Steady.seek (h : b.Steady B) (offset : Nat) :
    b.Seeks offset ∧ ∃ e b', b.seek offset = .ok (e, b') ∧ b'.Steady B := by
  obtain ⟨blks, hb⟩ := h.holds
  have hlt := hb.lt
  have hcap := hb.capacity
  have hle := h.behind.le
  by_cases hsame : b.pos = offset
  · exact ⟨.inl hsame, .ok, b, if_pos hsame, h⟩
  by_cases hbig : b.capacity < offset
  · refine ⟨.inr (.inl hbig), .size, b, ?_, h⟩
    rw [PktBuffer.seek, if_neg hsame, if_pos hbig]
  by_cases hback : offset < b.pos
  · -- backwards the walk starts again at the front
    cases hblks : blks with
    | nil =>
      rw [hblks, sizes_nil] at hcap
      omega
    | cons blk rest =>
      have hlist : b.blkList = some blk :: rest.map some := by rw [hb.list, hblks, List.map_cons]
      have hstart : b.seekStart offset = .ok (b.rewound blks, offset) := by
        simp [seekStart, hback, hlist, rewound, hblks]
      have hfront : (b.rewound blks).Spot B blks 0 :=
        ⟨hb.list, hb.ok, hb.lt, rewound_at hb.ok b⟩
      have hzero : (b.rewound blks).pos = 0 := rfl
      obtain ⟨s', b', blks', hwalked, hspot, hsizes, hpos, hcap'⟩ :=
        hfront.walked (seek_serves B) offset (by omega) (by omega) trivial
      refine ⟨.inr (.inr ⟨_, _, b', hstart, hwalked⟩), .ok, b',
        seek_loop hsame (by omega) hstart hwalked, ?_⟩
      exact hb.steady_of_spot hspot hsizes hcap' (by omega) (by omega)
  · have hsub : sub32 offset b.pos = offset - b.pos := wrapSub_eq (by omega) (by omega)
    have hstart : b.seekStart offset = .ok (b, offset - b.pos) := by
      rw [seekStart, if_neg hback, hsub]
    obtain ⟨q, hq, hspot⟩ := hb.spot h.behind (by omega)
    obtain ⟨s', b', blks', hwalked, hspot', hsizes, hpos, hcap'⟩ :=
      hspot.walked (seek_serves B) (offset - b.pos) (by omega) (by omega) trivial
    refine ⟨.inr (.inr ⟨_, _, b', hstart, hwalked⟩), .ok, b',
      seek_loop hsame (by omega) hstart hwalked, ?_⟩
    exact hb.steady_of_spot hspot' hsizes hcap' (by omega) (by omega)

theorem Steady.fill (h : b.Steady B) (v : UInt8) (size : Nat) :
    b.Fills v size ∧ ∃ e b', b.fill v size = .ok (e, b') ∧ b'.Steady B := by
  by_cases hzero : size = 0
  · exact ⟨.inl hzero, .param, b, if_pos hzero, h⟩
  by_cases hbig : b.totalBlkRemain < size
  · refine ⟨.inr (.inl hbig), .size, b, ?_, h⟩
    rw [PktBuffer.fill, if_neg hzero, if_pos hbig]
  obtain ⟨s', b', hwalked, hb'⟩ :=
    h.walked (s := ()) (fill_serves B v) hzero (by omega) trivial
  exact ⟨.inr (.inr ⟨b', hwalked⟩), .ok, b', fill_loop hzero (by omega) hwalked, hb'⟩

theorem Steady.write (h : b.Steady B) {src : Option (List UInt8)} {size : Nat}
    (hsrc : ∀ mem ∈ src, size ≤ mem.length) :
    b.Writes src size ∧ ∃ e b', b.write src size = .ok (e, b') ∧ b'.Steady B := by
  cases src with
  | none => exact ⟨.inr (.inr (by simp)), .param, b, rfl, h⟩
  | some mem =>
    have hmem : size ≤ mem.length := hsrc mem rfl
    by_cases hzero : size = 0
    · exact ⟨.inl hzero, .param, b, if_pos hzero, h⟩
    by_cases hbig : b.totalBlkRemain < size
    · refine ⟨.inr (.inl hbig), .size, b, ?_, h⟩
      simp only [PktBuffer.write, if_neg hzero, if_pos hbig]
    obtain ⟨mem', b', hwalked, hb'⟩ :=
      h.walked (write_serves B) hzero (by omega) hmem
    refine ⟨.inr (.inr ?_), .ok, b', write_loop hzero (by omega) hwalked, hb'⟩
    rintro _ ⟨⟩
    exact ⟨mem', b', hwalked⟩

theorem Steady.read (h : b.Steady B) {dest : Option (List UInt8)} {size : Nat}
    (hdest : ∀ mem ∈ dest, size ≤ mem.length) :
    b.Reads dest size ∧ ∃ e dest' b', b.read dest size = .ok (e, dest', b') ∧ b'.Steady B := by
  cases dest with
  | none => exact ⟨.inr (.inr (by simp)), .param, none, b, rfl, h⟩
  | some mem =>
    have hmem : size ≤ mem.length := hdest mem rfl
    by_cases hzero : size = 0
    · exact ⟨.inl hzero, .param, some mem, b, if_pos hzero, h⟩
    by_cases hbig : b.totalBlkRemain < size
    · refine ⟨.inr (.inl hbig), .size, some mem, b, ?_, h⟩
      simp only [PktBuffer.read, if_neg hzero, if_pos hbig]
    obtain ⟨s', b', hwalked, hb'⟩ :=
      h.walked (s := (0, mem)) (read_serves B) hzero (by omega) (by simpa using hmem)
    refine ⟨.inr (.inr ?_), .ok, _, b', read_loop hzero (by omega) hwalked, hb'⟩
    rintro _ ⟨⟩
    exact ⟨s', b', hwalked⟩

theorem Steady.copy {src : PktBuffer} (h : b.Steady B) (hsrc : src.Steady B) (size : Nat) :
    b.Copies src size ∧ ∃ e b' src', b.copy src size = .ok (e, b', src') ∧ b'.Steady B ∧
      src'.Steady B := by
  by_cases hbig : b.totalBlkRemain < size ∨ src.totalBlkRemain < size
  · refine ⟨hbig.elim .inl fun h => .inr (.inl h), .size, b, src, ?_, h, hsrc⟩
    rw [PktBuffer.copy, if_pos hbig]
  by_cases hzero : size = 0
  · subst hzero
    have hdone := CopyWalked.done b src
    exact ⟨.inr (.inr ⟨b, src, hdone⟩), .ok, b, src, copy_loop (by omega) (by omega) hdone, h, hsrc⟩
  obtain ⟨b', src', hwalked, hb', hsrc'⟩ := h.copyWalked hsrc hzero (by omega) (by omega)
  exact ⟨.inr (.inr ⟨b', src', hwalked⟩), .ok, b', src',
    copy_loop (by omega) (by omega) hwalked, hb', hsrc'⟩

theorem InWindow.cursorByte {c : Nat} (h : b.InWindow c) : ∃ q, b.cursorByte = some q := by
  obtain ⟨i, blk, k, hcur, hblk, hoff, hk⟩ := h.inside
  have hpos := h.pos
  refine ⟨sizes (b.blkList.take i).reduceOption + k, ?_⟩
  simp only [PktBuffer.cursorByte, hcur, hblk, hoff]
  rw [if_pos (by omega), Nat.add_sub_cancel_left]

/-- A `fill` that goes through has had its bytes in front of the cursor. -/
theorem Fills.fits {v : UInt8} {size : Nat} (h : b.Fills v size) (hb : b.Holds B blks)
    (hpos : 0 < size) (hremain : size ≤ b.totalBlkRemain) :
    ∃ q ∈ b.cursorByte, q + size ≤ b.capacity := by
  rcases h with hzero | hbig | ⟨b', hwalked⟩
  · omega
  · omega
  · have hwindow : ∃ c, b.InWindow c := by
      cases hwalked with
      | done => omega
      | round _ _ _ hwindow => exact ⟨_, hwindow⟩
    obtain ⟨c, hwindow⟩ := hwindow
    obtain ⟨q, hq⟩ := hwindow.cursorByte
    have hspot : b.Spot B blks q := ⟨hb.list, hb.ok, hb.lt, (at_of_cursorByte hb.list hq).2⟩
    refine ⟨q, hq, ?_⟩
    rw [hb.capacity]
    exact hwalked.fits (fill_serves B v) hspot trivial

/-- All accepted `fill`s stay inside the packet only if the buffer is `Behind`. -/
theorem fills_iff (hb : b.Holds B blks) (hpos : b.pos < 2 ^ 32) (v : UInt8) :
    (∀ size, b.Fills v size) ↔ b.Behind := by
  constructor
  · intro h
    have hlt := hb.capacity_lt
    have hle : b.pos ≤ b.capacity := by
      by_contra hover
      -- the difference wraps around, and one byte more than there are is accepted
      have hwrap : b.totalBlkRemain = 2 ^ 32 - (b.pos - b.capacity) :=
        wrapSub_of_lt (Nat.lt_of_not_le hover) hpos
      obtain ⟨q, -, hfit⟩ := (h (b.capacity + 1)).fits hb (by omega) (by omega)
      omega
    refine ⟨hle, fun hin => ?_⟩
    have hremain : b.totalBlkRemain = b.capacity - b.pos := wrapSub_eq hle (by omega)
    obtain ⟨q, hq, hfit⟩ := (h (b.capacity - b.pos)).fits hb (by omega) (by omega)
    exact ⟨q, hq, by omega⟩
  · intro h size
    have hsteady : b.Steady B := ⟨⟨blks, hb⟩, h⟩
    exact (hsteady.fill v size).1

end PktBuffer

end TinyTcp.Pkt
