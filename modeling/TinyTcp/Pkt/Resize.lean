/-
TinyTcp.Pkt.Resize — the ways through `resize`, and what a shrinking one
does with the blocks it cuts off.

Growing first uses the slack behind the last window and then allocates.
Shrinking stops at the block in which the new end lies (`findTail_ok`) and
drops the blocks behind it. The loop that drops them erases a node and
then releases the block of the NEXT one, so with at least one block to
drop it ends up reading the end iterator (`dropLoop_fault`).
`shrink_conserves_iff` is the exact condition under which shrinking
conserves the blocks: there is nothing to drop.
-/
import TinyTcp.Pkt.Layout

namespace TinyTcp.Pkt

open TinyTcp.Lib

namespace PktBuffer

variable {m : PktManager} (self : BufId) {b : PktBuffer} {n : Nat}
variable {init : List PktBlock} {tail : PktBlock}

theorem splitLast_eq (init : List PktBlock) (tail : PktBlock) :
    splitLast ((init ++ [tail]).map some) = .ok (init.map some, tail) := by
  induction init with
  | nil => rfl
  | cons blk init ih =>
    cases init with
    | nil => rfl
    | cons blk' init =>
      simp only [List.cons_append, List.map_cons, splitLast] at ih ⊢
      simp only [ih, ok_bind]

/-! ## Growing -/

/-- The bytes behind the last window. -/
def slack (B : Nat) (tail : PktBlock) : Nat := B - (tail.data + tail.size)

theorem resize_same (h : n = b.capacity) : resize m self b n = .ok (.ok, m, b) := by
  rw [resize, if_pos h]

theorem resize_empty (hne : n ≠ b.capacity) (hzero : b.capacity = 0) :
    resize m self b n = (do
      let (ok, m, b) ← alloc m b n false false
      if ok then .ok (.ok, m, b) else .ok (.mem, m, b)) := by
  rw [resize, if_neg hne, if_pos hzero]

/-- The slack alone is as large as the new size. -/
theorem resize_inPlace (hlist : b.blkList = (init ++ [tail]).map some)
    (htail : tail.Ok m.blkSize) (hB : m.blkSize < 2 ^ 64) (hpos : b.capacity ≠ 0)
    (hn : b.capacity < n) (hslack : n ≤ slack m.blkSize tail) :
    resize m self b n = .ok (.ok, m, { b with
      blkList := (init ++ [{ tail with size := add32 tail.size n }]).map some
      capacity := add32 b.capacity n }) := by
  rw [resize, if_neg (by omega), if_neg hpos, if_pos hn, hlist, splitLast_eq]
  simp only [ok_bind, htail.getLastSize hB]
  rw [if_pos (show m.blkSize - (tail.data + tail.size) ≥ n from hslack)]
  simp

/-- The buffer when the slack behind the last window has been taken in. -/
def stretched (B : Nat) (b : PktBuffer) (init : List PktBlock) (tail : PktBlock) : PktBuffer :=
  { b with
    blkList := (init ++ [{ tail with size := add32 tail.size (slack B tail) }]).map some
    capacity := add32 b.capacity (slack B tail) }

/-- The last block with `c` bytes of slack taken in. -/
theorem grown_tail_content (c : Nat) :
    content (init ++ [{ tail with size := tail.size + c }]) =
      content (init ++ [tail]) ++ slice tail.payload (tail.data + tail.size) c := by
  have hwin : { tail with size := tail.size + c }.window =
      tail.window ++ slice tail.payload (tail.data + tail.size) c :=
    slice_add tail.payload tail.data tail.size c
  simp only [content_append, content_cons, content_nil, List.append_nil, hwin, List.append_assoc]

theorem grown_tail_ok {B c : Nat} (h : ∀ blk ∈ init ++ [tail], blk.Ok B)
    (hc : tail.data + (tail.size + c) ≤ B) :
    ∀ blk ∈ init ++ [{ tail with size := tail.size + c }], blk.Ok B := by
  intro blk hblk
  have htail : tail.Ok B := h tail (by simp)
  have hpos := htail.pos
  rcases List.mem_append.mp hblk with hinit | hlast
  · exact h blk (List.mem_append_left _ hinit)
  · rw [List.mem_singleton.mp hlast]
    exact ⟨Nat.le_trans hpos (Nat.le_add_right _ _), hc, htail.payload⟩

/-- The slack is smaller than the new size: it is used up, and the rest of
the new size is allocated. -/
theorem resize_stretch (hlist : b.blkList = (init ++ [tail]).map some)
    (htail : tail.Ok m.blkSize) (hB : m.blkSize < 2 ^ 64) (hpos : b.capacity ≠ 0)
    (hn : b.capacity < n) (hslack : slack m.blkSize tail < n) :
    resize m self b n = (do
      let (ok, m', b') ← alloc m (b.stretched m.blkSize init tail)
        (sub32 n (b.stretched m.blkSize init tail).capacity) false false
      if ok then .ok (.ok, m', b') else .ok (.mem, m', b')) := by
  rw [resize, if_neg (by omega), if_neg hpos, if_pos hn, hlist, splitLast_eq]
  simp only [ok_bind, htail.getLastSize hB]
  rw [if_neg (show ¬ m.blkSize - (tail.data + tail.size) ≥ n from Nat.not_le.mpr hslack)]
  simp [stretched, slack]

/-! ## Shrinking -/

/-- The first loop stops at the block the new end lies in. -/
theorem findTail_ok (blks : List PktBlock) (total : Nat) (hn : n ≤ total + sizes blks)
    (htotal : total < n) (hlt : total + sizes blks < 2 ^ 32) :
    ∃ kept tail rest, blks = kept ++ tail :: rest ∧
      findTail n (blks.map some) total = .ok ((kept ++ [tail]).map some, rest.map some) ∧
      total + sizes kept < n ∧ n ≤ total + sizes kept + tail.size := by
  induction blks generalizing total with
  | nil =>
    rw [sizes_nil] at hn
    omega
  | cons blk blks ih =>
    rw [sizes_cons] at hn hlt
    have hadd : add32 total blk.size = total + blk.size := wrapAdd_eq (by omega)
    by_cases hstop : total + blk.size ≥ n
    · refine ⟨[], blk, blks, rfl, ?_, htotal, hstop⟩
      simp [findTail, hadd, hstop]
    · obtain ⟨kept, tail, rest, hsplit, heq, hlo, hhi⟩ :=
        ih (total + blk.size) (by omega) (by omega) (by omega)
      refine ⟨blk :: kept, tail, rest, by rw [hsplit, List.cons_append], ?_, ?_, ?_⟩
      · simp only [List.map_cons, findTail, hadd, if_neg hstop, heq, ok_bind, List.cons_append]
      · rw [sizes_cons]
        omega
      · rw [sizes_cons]
        omega

/-- The second loop, with a block to drop, reads the end iterator. -/
theorem dropLoop_fault (blk : PktBlock) (rest : List PktBlock) (m : PktManager) (capacity : Nat) :
    dropLoop m ((blk :: rest).map some) capacity = .error .badIterator := by
  induction rest generalizing blk m capacity with
  | nil => rfl
  | cons next rest ih =>
    have hnext := ih next (m.releasePktblock (some next)) (sub32 capacity blk.size)
    simp only [List.map_cons] at hnext ⊢
    simp only [dropLoop] at hnext ⊢
    exact hnext

/-- Shrinking within the last block. -/
theorem resize_shrink {init : List PktBlock} {tail : PktBlock}
    (hb : b.Holds m.blkSize (init ++ [tail])) (hpos : sizes init < n) (hn : n < b.capacity) :
    resize m self b n = .ok (.ok, m, { b with
      blkList := (init ++ [{ tail with size := n - sizes init }]).map some, capacity := n }) := by
  have hcap := hb.capacity
  have hlt := hb.lt
  rw [sizes_append, sizes_cons, sizes_nil] at hcap hlt
  obtain ⟨kept, tail', rest, hsplit, heq, hlo, hhi⟩ :=
    findTail_ok (n := n) (init ++ [tail]) 0
      (by rw [sizes_append, sizes_cons, sizes_nil]; omega) (by omega)
      (by rw [sizes_append, sizes_cons, sizes_nil]; omega)
  -- the new end lies behind `init`, so nothing follows the block it lies in
  have hrest : rest = [] := by
    by_contra hne
    have hprefix : kept ++ [tail'] <+: init := by
      have hpre : kept ++ [tail'] <+: init ++ [tail] := ⟨rest, by rw [hsplit]; simp⟩
      rcases List.prefix_concat_iff.mp hpre with hall | hpre
      · rw [hsplit] at hall
        simp only [List.append_cancel_left_eq, List.cons.injEq, true_and] at hall
        exact absurd hall.symm hne
      · exact hpre
    obtain ⟨more, hmore⟩ := hprefix
    have hsizes : sizes init = sizes kept + tail'.size + sizes more := by
      rw [← hmore, sizes_append, sizes_append, sizes_cons, sizes_nil]
      omega
    omega
  rw [hrest] at hsplit heq
  obtain ⟨rfl, hlast⟩ := List.append_inj' hsplit rfl
  obtain rfl : tail = tail' := by simpa using hlast
  have hpre : sub32 b.capacity tail.size = sizes init := by
    rw [sub32, wrapSub_eq (by omega) (by omega)]
    omega
  have hnew : sub32 n (sizes init) = n - sizes init := wrapSub_eq (by omega) (by omega)
  have hcapacity : add32 (sizes init) (n - sizes init) = n := by
    rw [add32, wrapAdd_eq (by omega)]
    omega
  rw [resize, if_neg (by omega), if_neg (by omega), if_neg (by omega), if_neg (by omega), hb.list,
    heq]
  simp only [ok_bind, List.map_nil, dropLoop, splitLast_eq, hpre, hnew, hcapacity,
    List.length_nil, Iter.erased_none]
  simp

/-- Shrinking by a whole block. -/
theorem resize_fault {blks : List PktBlock} (hb : b.Holds m.blkSize blks) (h1 : 1 ≤ n)
    (hn : n < b.capacity) (hcut : n ≤ sizes blks.dropLast) :
    resize m self b n = .error .badIterator := by
  have hcap := hb.capacity
  have hlt := hb.lt
  obtain ⟨kept, tail, rest, hsplit, heq, hlo, hhi⟩ :=
    findTail_ok blks 0 (n := n) (by omega) (by omega) (by omega)
  cases rest with
  | nil =>
    rw [hsplit, List.dropLast_concat] at hcut
    omega
  | cons next rest =>
    rw [resize, if_neg (by omega), if_neg (by omega), if_neg (by omega), if_neg (by omega),
      hb.list, heq]
    simp only [ok_bind, dropLoop_fault, error_bind]

/-! ## Conservation -/

/-- `resize` puts back exactly the blocks it takes out of the list, each
once; afterwards the free list and the buffer have no block in common and
together the same blocks as before. A call that faults does not. -/
def ShrinkConserves (m : PktManager) (self : BufId) (b : PktBuffer) (n : Nat) : Prop :=
  ∃ m' b', resize m self b n = .ok (.ok, m', b') ∧
    (∃ removed : List PktBlock,
      m'.pktBlk.items = m.pktBlk.items ++ removed.map some ∧
      (addrs removed ++ addrs b'.blkList.reduceOption).Perm (addrs b.blkList.reduceOption)) ∧
    (addrs m'.pktBlk.items.reduceOption ++ addrs b'.blkList.reduceOption).Nodup ∧
    (addrs m'.pktBlk.items.reduceOption ++ addrs b'.blkList.reduceOption).Perm
      (addrs m.pktBlk.items.reduceOption ++ addrs b.blkList.reduceOption)

/-- Shrinking conserves the blocks exactly when it removes none, that is,
when the new end lies in the last block. -/
theorem shrink_conserves_iff {free blks : List PktBlock} (hpool : m.Pool free)
    (hb : b.Holds m.blkSize blks) (hnodup : (addrs free ++ addrs blks).Nodup) (h1 : 1 ≤ n)
    (hn : n < b.capacity) : ShrinkConserves m self b n ↔ sizes blks.dropLast < n := by
  constructor
  · rintro ⟨m', b', heq, -⟩
    by_contra hcut
    rw [resize_fault self hb h1 hn (Nat.le_of_not_lt hcut)] at heq
    cases heq
  · intro hcut
    obtain ⟨init, tail, hblks⟩ := hb.exists_last (show b.capacity ≠ 0 by omega)
    rw [hblks] at hb hcut
    rw [List.dropLast_concat] at hcut
    have hsame : addrs (init ++ [{ tail with size := n - sizes init }]) =
        addrs (init ++ [tail]) := by simp
    refine ⟨m, _, resize_shrink self hb hcut hn, ⟨[], by simp, ?_⟩, ?_, ?_⟩
    · simp only [hb.list, reduceOption_map_some, hsame, addrs_nil, List.nil_append]
      exact List.Perm.refl _
    · simp only [hpool.items, reduceOption_map_some, hsame, ← hblks]
      exact hnodup
    · simp only [hb.list, hpool.items, reduceOption_map_some, hsame]
      exact List.Perm.refl _

/-- A pool of two free blocks of four bytes. -/
def twoFree : PktManager where
  blkSize := 4
  pktBlk := ⟨4, [some ⟨2, 0, 0, [0, 0, 0, 0]⟩, some ⟨3, 0, 0, [0, 0, 0, 0]⟩]⟩
  pktBuf := ⟨4, []⟩

/-- A packet of six bytes in two such blocks. -/
def sixBytes : PktBuffer where
  capacity := 6
  blkList := [some ⟨0, 4, 0, [1, 2, 3, 4]⟩, some ⟨1, 2, 0, [5, 6, 0, 0]⟩]
  pos := 0
  curBlk := .at 0
  blkOffset := some 0
  ref := 1

theorem shrink_conserves_within_last_block : ShrinkConserves twoFree 0 sixBytes 5 := by
  have hb : sixBytes.Holds 4 [⟨0, 4, 0, [1, 2, 3, 4]⟩, ⟨1, 2, 0, [5, 6, 0, 0]⟩] :=
    ⟨rfl, by decide, rfl, by decide⟩
  have hpool : twoFree.Pool [⟨2, 0, 0, [0, 0, 0, 0]⟩, ⟨3, 0, 0, [0, 0, 0, 0]⟩] :=
    ⟨rfl, by decide⟩
  exact (shrink_conserves_iff 0 hpool hb (by decide) (by decide) (by decide)).mpr (by decide)

/-- Resized to four bytes, the packet needs its first block only, and the
second one is not put back. -/
theorem shrink_by_a_block_not_conserves :
    twoFree.Pool [⟨2, 0, 0, [0, 0, 0, 0]⟩, ⟨3, 0, 0, [0, 0, 0, 0]⟩] ∧
      sixBytes.Holds 4 [⟨0, 4, 0, [1, 2, 3, 4]⟩, ⟨1, 2, 0, [5, 6, 0, 0]⟩] ∧
      4 < sixBytes.capacity ∧ ¬ ShrinkConserves twoFree 0 sixBytes 4 := by
  refine ⟨⟨rfl, by decide⟩, ⟨rfl, by decide, rfl, by decide⟩, by decide, ?_⟩
  rintro ⟨m', b', heq, -⟩
  have hfault : resize twoFree 0 sixBytes 4 = .error .badIterator := by decide
  rw [hfault] at heq
  cases heq

end PktBuffer

end TinyTcp.Pkt
