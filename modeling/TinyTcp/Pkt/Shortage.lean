/-
TinyTcp.Pkt.Shortage — `resize` when the pool has too few blocks, and
`remove_header` when the packet has too few bytes.

`remove_header` looks at the list once, before the loop. With more bytes
to remove than there are, the loop releases every block and then takes
the front of the empty list (`removeLoop_short`). `removes_iff` is the
exact condition under which the call does what a caller may expect.

`resize` enlarges the last block and the capacity before it allocates
the rest, and leaves them enlarged when that fails. What it asks for may
also be what a negative difference wraps around to. `failsForWant_iff`
is the exact condition under which an error means that blocks are
missing and that nothing has changed.
-/
import TinyTcp.Pkt.ResizeExact

namespace TinyTcp.Pkt

open TinyTcp.Lib

namespace PktBuffer

variable {m : PktManager} {self : BufId} {b : PktBuffer} {n : Nat}
variable {free blks init : List PktBlock} {tail : PktBlock}

/-! ## remove_header -/

/-- What a caller may expect: the first `size` bytes are gone, or, when there are
not that many, an error and nothing else. -/
def Removes (m : PktManager) (b : PktBuffer) (size : Nat) : Prop :=
  ∃ e m' b', removeHeader m b size = .ok (e, m', b') ∧
    if size ≤ b.capacity then
      e = .ok ∧ b'.bytes = b.bytes.drop size ∧ ∃ blks', b'.Holds m.blkSize blks'
    else e.isErr = true ∧ m' = m ∧ b' = b

/-- With too few bytes in the blocks, the loop goes on behind the last one. -/
theorem removeLoop_short (blks : List PktBlock) (capacity n : Nat) (hn : sizes blks < n) :
    removeLoop (blks.map some) capacity n = .error .emptyList := by
  induction blks generalizing capacity n with
  | nil =>
    cases n with
    | zero => exact absurd hn (Nat.lt_irrefl 0)
    | succ n => rfl
  | cons blk blks ih =>
    rw [sizes_cons] at hn
    cases n with
    | zero => exact absurd hn (Nat.not_lt_zero _)
    | succ n =>
      have hnot : ¬ n + 1 < blk.size := by omega
      have hnext := ih (sub32 capacity blk.size) (n + 1 - blk.size) (by omega)
      simp only [List.map_cons, removeLoop, if_neg hnot, hnext, error_bind]

theorem removeHeader_short (m : PktManager) {B : Nat} (hb : b.Holds B blks) (hne : blks ≠ [])
    (hn : b.capacity < n) : removeHeader m b n = .error .emptyList := by
  have hlist : b.blkList.length ≠ 0 := by
    rw [hb.list, List.length_map]
    exact fun h => hne (List.length_eq_zero_iff.mp h)
  rw [hb.capacity] at hn
  rw [removeHeader, if_neg hlist, hb.list, removeLoop_short blks b.capacity n hn, error_bind]

/-- **remove_header does what a caller may expect** exactly if the packet has the bytes. -/
theorem removes_iff (m : PktManager) (hb : b.Holds m.blkSize blks) (hne : blks ≠ []) (n : Nat) :
    Removes m b n ↔ n ≤ b.capacity := by
  constructor
  · rintro ⟨e, m', b', heq, -⟩
    by_contra hn
    rw [removeHeader_short m hb hne (Nat.lt_of_not_le hn)] at heq
    cases heq
  · intro hn
    have hsizes : n ≤ sizes blks := by rwa [← hb.capacity]
    have hlt := hb.lt
    have hholds : PktBuffer.Holds m.blkSize { b with
        blkList := (cutFront n blks).2.map some, capacity := b.capacity - n
        curBlk := b.curBlk.erased 0 (cutFront n blks).1.length } (cutFront n blks).2 := by
      refine ⟨rfl, cutFront_ok n blks hb.ok, ?_, ?_⟩
      · rw [cutFront_sizes, hb.capacity]
      · rw [cutFront_sizes]
        omega
    refine ⟨_, _, _, removeHeader_eq m hb hne hn, ?_⟩
    rw [if_pos hn]
    refine ⟨rfl, ?_, _, hholds⟩
    rw [hholds.bytes, hb.bytes, cutFront_content n blks hb.ok]

theorem removes_within : Removes twoFree sixBytes 5 := by
  have hb : sixBytes.Holds 4 [⟨0, 4, 0, [1, 2, 3, 4]⟩, ⟨1, 2, 0, [5, 6, 0, 0]⟩] :=
    ⟨rfl, by decide, rfl, by decide⟩
  exact (removes_iff twoFree hb (by decide) 5).mpr (by decide)

/-- Of six bytes, seven are to be removed. -/
theorem not_removes_past_the_end :
    sixBytes.Holds twoFree.blkSize [⟨0, 4, 0, [1, 2, 3, 4]⟩, ⟨1, 2, 0, [5, 6, 0, 0]⟩] ∧
      ¬ Removes twoFree sixBytes 7 := by
  refine ⟨⟨rfl, by decide, rfl, by decide⟩, ?_⟩
  rintro ⟨e, m', b', heq, -⟩
  have hfault : removeHeader twoFree sixBytes 7 = .error .emptyList := by decide
  rw [hfault] at heq
  cases heq

/-! ## resize -/

/-- How many blocks the bytes need that the last block of the packet has no room for. -/
def missingBlocks (m : PktManager) (b : PktBuffer) (size : Nat) : Nat :=
  (size - b.capacity - b.backSlack m.blkSize + m.blkSize - 1) / m.blkSize

/-- `NET_ERR_MEM` means that the packet was to grow and that there are too few free
blocks, and it comes with the list, the bytes and the pool as they were. -/
def FailsForWant (m : PktManager) (self : BufId) (b : PktBuffer) (size : Nat) : Prop :=
  ∀ m' b', resize m self b size = .ok (.mem, m', b') →
    (b.capacity < size ∧ m.pktBlk.items.length < missingBlocks m b size) ∧
    b'.blkList = b.blkList ∧ b'.capacity = b.capacity ∧ b'.bytes = b.bytes ∧
    none ∉ m'.pktBlk.items ∧
    (addrs m'.pktBlk.items.reduceOption).Perm (addrs m.pktBlk.items.reduceOption)

/-- The call does not allocate, or it has not taken in any slack before it does, or
there are as many free bytes as it asks for. -/
def AsksInTime (m : PktManager) (b : PktBuffer) (size : Nat) : Prop :=
  size ≤ b.capacity ∨ b.capacity = 0 ∨ b.backSlack m.blkSize = 0 ∨
    size ≤ b.backSlack m.blkSize ∨
    (b.capacity + b.backSlack m.blkSize ≤ size ∧
      size - (b.capacity + b.backSlack m.blkSize) ≤ m.freeBytes) ∨
    (size < b.capacity + b.backSlack m.blkSize ∧
      size + 2 ^ 32 - (b.capacity + b.backSlack m.blkSize) ≤ m.freeBytes)

instance (m : PktManager) (b : PktBuffer) (size : Nat) : Decidable (AsksInTime m b size) := by
  unfold AsksInTime
  infer_instance

/-- There are fewer blocks than `n` bytes need exactly if they hold fewer bytes. -/
theorem lt_blocks_iff {B count : Nat} (hB : 1 ≤ B) (n : Nat) :
    count < (n + B - 1) / B ↔ count * B < n := by
  have hle : count + 1 ≤ (n + B - 1) / B ↔ (count + 1) * B ≤ n + B - 1 :=
    Nat.le_div_iff_mul_le hB
  have hmul : (count + 1) * B = count * B + B := Nat.succ_mul count B
  omega

/-- A call that does not end with `NET_ERR_MEM` has nothing to undo. -/
theorem failsForWant_of_not_mem (h : ∀ m' b', resize m self b n ≠ .ok (.mem, m', b')) :
    FailsForWant m self b n :=
  fun m' b' heq => absurd heq (h m' b')

/-- A failing call with a list that has not changed. -/
theorem failsForWant_of_mem {m' : PktManager} {b' : PktBuffer} {free' : List PktBlock}
    (h : resize m self b n = .ok (.mem, m', b')) (hpool : m.Pool free) (hgrow : b.capacity < n)
    (hwant : free.length < missingBlocks m b n)
    (hpool' : m'.pktBlk.items = free'.map some) (haddrs : addrs free' = addrs free)
    (hlist : b'.blkList = b.blkList) (hcap : b'.capacity = b.capacity) :
    FailsForWant m self b n := by
  intro m'' b'' heq
  rw [h] at heq
  obtain ⟨rfl, rfl⟩ : m' = m'' ∧ b' = b'' := by simpa using heq
  refine ⟨⟨hgrow, ?_⟩, hlist, hcap, ?_, ?_, ?_⟩
  · rw [hpool.items, List.length_map]
    exact hwant
  · rw [PktBuffer.bytes, hlist, PktBuffer.bytes]
  · rw [hpool']
    exact none_not_mem_map free'
  · rw [hpool', hpool.items, reduceOption_map_some, reduceOption_map_some, haddrs]

theorem failsForWant_empty (hm : m.Sound) (hb : b.Holds m.blkSize blks) (hzero : b.capacity = 0)
    (h1 : 1 ≤ n) : FailsForWant m self b n := by
  obtain ⟨free, hpool⟩ := hm.pool
  have hroom := hm.room
  rw [hpool.items, List.length_map] at hroom
  have heq := resize_empty (m := m) self (show n ≠ b.capacity by omega) hzero
  by_cases henough : n ≤ free.length * m.blkSize
  · obtain ⟨new, rest, -, halloc⟩ := alloc_ok hpool hm.blkSize_pos hb.list henough false false
    simp only [halloc, ok_bind, if_true] at heq
    refine failsForWant_of_not_mem fun m' b' heq' => ?_
    rw [heq] at heq'
    cases heq'
  · obtain ⟨free', haddrs, -, halloc⟩ :=
      alloc_short hpool hroom hb.capacity_lt (Nat.lt_of_not_le henough) false false
    simp only [halloc, ok_bind, Bool.false_eq_true, if_false] at heq
    have hnil : blks = [] := hb.capacity_eq_zero_iff.mp hzero
    have hslack : b.backSlack m.blkSize = 0 := by
      simp only [backSlack, hb.list, hnil, List.map_nil, List.getLast?_nil]
    refine failsForWant_of_mem heq hpool (by omega) ?_ rfl haddrs rfl rfl
    rw [missingBlocks, hzero, hslack, Nat.sub_zero, Nat.sub_zero, lt_blocks_iff hm.blkSize_pos]
    exact Nat.lt_of_not_le henough

/-- A shrinking call allocates nothing. -/
theorem failsForWant_shrink (hb : b.Holds m.blkSize blks) (h1 : 1 ≤ n) (hn : n < b.capacity) :
    FailsForWant m self b n := by
  by_cases hcut : n ≤ sizes blks.dropLast
  · refine failsForWant_of_not_mem fun m' b' heq => ?_
    rw [resize_fault self hb h1 hn hcut] at heq
    cases heq
  · obtain ⟨init, tail, rfl⟩ := hb.exists_last (show b.capacity ≠ 0 by omega)
    rw [List.dropLast_concat] at hcut
    refine failsForWant_of_not_mem fun m' b' heq => ?_
    rw [resize_shrink self hb (Nat.lt_of_not_le hcut) hn] at heq
    cases heq

/-- Without slack the last block is enlarged by nothing. -/
theorem stretched_none (hb : b.Holds m.blkSize (init ++ [tail]))
    (hB : m.blkSize < 2 ^ 32) (hzero : slack m.blkSize tail = 0) :
    b.stretched m.blkSize init tail = b := by
  have hfits := (hb.ok tail (by simp)).fits
  have hsize : add32 tail.size 0 = tail.size := wrapAdd_eq (by omega)
  have hcap : add32 b.capacity 0 = b.capacity := wrapAdd_eq hb.capacity_lt
  rw [stretched, hzero, hsize, hcap, ← hb.list]

/-- Behind a slack that does not do, the call asks for blocks; an error says what a
caller may expect if there was no slack, and there is none if there are enough. -/
theorem failsForWant_stretch (hm : m.Sound) (hb : b.Holds m.blkSize (init ++ [tail]))
    (hzero : b.capacity ≠ 0) (hgrow : b.capacity < n) (hn : n < 2 ^ 32)
    (hin : slack m.blkSize tail < n) :
    FailsForWant m self b n ↔ slack m.blkSize tail = 0 ∨
      sub32 n (add32 b.capacity (slack m.blkSize tail)) ≤ m.freeBytes := by
  obtain ⟨free, hpool⟩ := hm.pool
  have hroom := hm.room
  rw [hpool.items, List.length_map] at hroom
  rw [hpool.freeBytes]
  have hB := hm.blkSize_lt
  have htail := hb.ok tail (by simp)
  have hfits := htail.fits
  have heq := resize_stretch self hb.list htail (by omega) hzero hgrow hin
  have hcap : (b.stretched m.blkSize init tail).capacity =
      add32 b.capacity (slack m.blkSize tail) := rfl
  rw [hcap] at heq
  by_cases henough :
      sub32 n (add32 b.capacity (slack m.blkSize tail)) ≤ free.length * m.blkSize
  · obtain ⟨new, rest, -, halloc⟩ :=
      alloc_ok (b := b.stretched m.blkSize init tail) hpool hm.blkSize_pos rfl henough false false
    simp only [halloc, ok_bind, if_true] at heq
    refine iff_of_true (failsForWant_of_not_mem fun m' b' heq' => ?_) (Or.inr henough)
    rw [heq] at heq'
    cases heq'
  · have hcapLt : (b.stretched m.blkSize init tail).capacity < 2 ^ 32 :=
      Nat.mod_lt _ (by decide)
    obtain ⟨free', haddrs, -, halloc⟩ :=
      alloc_short hpool hroom hcapLt (Nat.lt_of_not_le henough) false false
    simp only [halloc, ok_bind, Bool.false_eq_true, if_false] at heq
    by_cases hnone : slack m.blkSize tail = 0
    · refine iff_of_true ?_ (Or.inl hnone)
      have hsame := stretched_none hb hB hnone
      have hadd : add32 b.capacity 0 = b.capacity := wrapAdd_eq hb.capacity_lt
      have hneed : sub32 n b.capacity = n - b.capacity := wrapSub_eq (by omega) (by omega)
      rw [hnone, hadd, hneed] at henough
      refine failsForWant_of_mem heq hpool hgrow ?_ rfl haddrs ?_ ?_
      · rw [missingBlocks, (Cursor.backSlack_eq hb hB).1, hnone, Nat.sub_zero,
          lt_blocks_iff hm.blkSize_pos]
        exact Nat.lt_of_not_le henough
      · change (b.stretched m.blkSize init tail).blkList = b.blkList
        rw [hsame]
      · change (b.stretched m.blkSize init tail).capacity = b.capacity
        rw [hsame]
    · refine iff_of_false ?_ (not_or.mpr ⟨hnone, henough⟩)
      intro h
      -- the last block keeps the slack it was enlarged by
      have hlist : (b.stretched m.blkSize init tail).blkList = b.blkList := (h _ _ heq).2.1
      rw [hb.list] at hlist
      have hblks := map_some_injective hlist
      simp only [List.append_cancel_left_eq, List.cons.injEq, and_true] at hblks
      have hsize : add32 tail.size (slack m.blkSize tail) = tail.size + slack m.blkSize tail := by
        refine wrapAdd_eq ?_
        rw [slack]
        omega
      have hwin : add32 tail.size (slack m.blkSize tail) = tail.size :=
        congrArg PktBlock.size hblks
      omega

/-- **resize fails only for want of blocks, and leaves everything as it was** exactly
if it does not allocate with slack taken in that the pool cannot make up for. -/
theorem failsForWant_iff (self : BufId) (hm : m.Sound) (hb : b.Holds m.blkSize blks) (h1 : 1 ≤ n)
    (hn : n < 2 ^ 32) : FailsForWant m self b n ↔ AsksInTime m b n := by
  by_cases hsame : n = b.capacity
  · refine iff_of_true (failsForWant_of_not_mem fun m' b' heq => ?_) (Or.inl (Nat.le_of_eq hsame))
    rw [resize_same self hsame] at heq
    cases heq
  by_cases hshrink : n < b.capacity
  · exact iff_of_true (failsForWant_shrink hb h1 hshrink) (Or.inl (Nat.le_of_lt hshrink))
  by_cases hzero : b.capacity = 0
  · exact iff_of_true (failsForWant_empty hm hb hzero h1) (Or.inr (Or.inl hzero))
  obtain ⟨init, tail, rfl⟩ := hb.exists_last hzero
  have hgrow : b.capacity < n := by omega
  have hB := hm.blkSize_lt
  rw [AsksInTime, (Cursor.backSlack_eq hb hB).1]
  by_cases hin : n ≤ slack m.blkSize tail
  · have heq := resize_inPlace self hb.list (hb.ok tail (by simp)) (by omega) hzero hgrow hin
    refine iff_of_true (failsForWant_of_not_mem fun m' b' heq' => ?_) (by simp [hin])
    rw [heq] at heq'
    cases heq'
  · rw [failsForWant_stretch hm hb hzero hgrow hn (Nat.lt_of_not_le hin)]
    have hneed := need_cases hgrow hn (Nat.lt_of_not_le hin)
    omega

/-- The two free blocks do not do for 28 more bytes. -/
theorem failsForWant_without_slack : FailsForWant twoBlocksFree 0 (twoBytes 0) 30 := by
  have hb : (twoBytes 0).Holds 8 [⟨0, 2, 6, [1, 2, 3, 4, 5, 6, 7, 8]⟩] :=
    ⟨rfl, by decide, rfl, by decide⟩
  exact (failsForWant_iff 0 twoBlocksFree_sound hb (by decide) (by decide)).mpr (by decide)

/-- With three bytes of slack behind two, `resize(4)` needs no block at all, asks for
almost `2 ^ 32` bytes, and fails with five bytes in the packet. -/
theorem not_failsForWant :
    twoBlocksFree.Sound ∧ (twoBytes 3).Holds 8 [⟨0, 2, 3, [1, 2, 3, 4, 5, 6, 7, 8]⟩] ∧
      ¬ FailsForWant twoBlocksFree 0 (twoBytes 3) 4 := by
  refine ⟨twoBlocksFree_sound, ⟨rfl, by decide, rfl, by decide⟩, fun h => ?_⟩
  have hcall : resize twoBlocksFree 0 (twoBytes 3) 4 = .ok (.mem, { twoBlocksFree with
      pktBlk := ⟨2, [some ⟨1, 8, 0, List.replicate 8 0⟩, some ⟨2, 8, 0, List.replicate 8 0⟩]⟩ },
      { twoBytes 3 with
        capacity := 5, blkList := [some ⟨0, 5, 3, [1, 2, 3, 4, 5, 6, 7, 8]⟩] }) := by decide
  exact absurd (h _ _ hcall).1.2 (by decide)

end PktBuffer

end TinyTcp.Pkt
