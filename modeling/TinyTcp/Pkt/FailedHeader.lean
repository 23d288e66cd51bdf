/-
TinyTcp.Pkt.FailedHeader — what a failing `alloc_header` leaves behind.

`alloc` undoes what it did when it runs out of blocks, `alloc_header` does
not: with a contiguous header the null pointer is in the list before it is
tested, and with one that may be split the slack of the first block has
been taken in before the rest is allocated. `LeavesAlone` is what a caller
may expect of an error, `FailsCleanly` the condition on the state before
the call, and `leavesAlone_iff` says that they are the same.
-/
import TinyTcp.Pkt.Keeps

namespace TinyTcp.Pkt

open TinyTcp.Lib

namespace PktBuffer

variable {m : PktManager} {b : PktBuffer} {free blks rest : List PktBlock} {first : PktBlock}
variable {n : Nat} {isCont : Bool}

/-- An error leaves the list with its blocks, the bytes, and the blocks in the pool. -/
def LeavesAlone (m : PktManager) (b : PktBuffer) (size : Nat) (isCont : Bool) : Prop :=
  ∀ e m' b', allocHeader m b size isCont = .ok (e, m', b') → e.isErr = true →
    b'.blkList = b.blkList ∧ none ∉ b'.blkList ∧ b'.capacity = b.capacity ∧ b'.bytes = b.bytes ∧
      none ∉ m'.pktBlk.items ∧
      (addrs m'.pktBlk.items.reduceOption).Perm (addrs m.pktBlk.items.reduceOption)

/-- The call fails before it has done anything, or it does not fail. -/
def FailsCleanly (m : PktManager) (b : PktBuffer) (size : Nat) (isCont : Bool) : Prop :=
  size ≤ b.frontSlack ∨
    if isCont then m.blkSize < size ∨ m.pktBlk.items ≠ []
    else b.frontSlack = 0 ∨ size - b.frontSlack ≤ m.freeBytes

instance (m : PktManager) (b : PktBuffer) (size : Nat) (isCont : Bool) :
    Decidable (FailsCleanly m b size isCont) := by
  unfold FailsCleanly
  infer_instance

/-- A call that succeeds has nothing to undo. -/
theorem leavesAlone_of_ok {m' : PktManager} {b' : PktBuffer}
    (h : allocHeader m b n isCont = .ok (.ok, m', b')) : LeavesAlone m b n isCont := by
  intro e m'' b'' heq herr
  rw [h] at heq
  obtain ⟨rfl, -⟩ : NetErr.ok = e ∧ _ := by simpa using heq
  cases herr

/-- The blocks of a failed call, in a list that has not changed. -/
theorem leavesAlone_of_err {e : NetErr} {m' : PktManager} {b' : PktBuffer} {free' : List PktBlock}
    (h : allocHeader m b n isCont = .ok (e, m', b')) (hpool : m.Pool free)
    (hb : b.Holds m.blkSize blks) (hpool' : m'.pktBlk.items = free'.map some)
    (haddrs : addrs free' = addrs free) (hlist : b'.blkList = b.blkList)
    (hcap : b'.capacity = b.capacity) : LeavesAlone m b n isCont := by
  intro e' m'' b'' heq _
  rw [h] at heq
  obtain ⟨rfl, rfl, rfl⟩ : e = e' ∧ m' = m'' ∧ b' = b'' := by simpa using heq
  refine ⟨hlist, ?_, hcap, ?_, ?_, ?_⟩
  · rw [hlist, hb.list]
    exact none_not_mem_map blks
  · rw [PktBuffer.bytes, hlist, PktBuffer.bytes]
  · rw [hpool']
    exact none_not_mem_map free'
  · rw [hpool', hpool.items, reduceOption_map_some, reduceOption_map_some, haddrs]

/-! ## A contiguous header -/

theorem leavesAlone_cont (hm : m.Sound) (hb : b.Holds m.blkSize (first :: rest))
    (hn : first.data < n) :
    LeavesAlone m b n true ↔ m.blkSize < n ∨ m.pktBlk.items ≠ [] := by
  obtain ⟨free, hpool⟩ := hm.pool
  by_cases hbig : m.blkSize < n
  · refine iff_of_true ?_ (Or.inl hbig)
    exact leavesAlone_of_err (allocHeader_tooBig hb.list hn hbig) hpool hb hpool.items rfl rfl rfl
  · have hle := Nat.le_of_not_lt hbig
    cases hfree : free with
    | nil =>
      rw [hfree] at hpool
      refine iff_of_false ?_ ?_
      · intro h
        have hnull := (h _ _ _ (allocHeader_noBlock hb.list hn hle hpool) rfl).2.1
        exact hnull List.mem_cons_self
      · rintro (hlt | hne)
        · exact hbig hlt
        · exact hne hpool.items
    | cons blk free' =>
      rw [hfree] at hpool
      refine iff_of_true ?_ (Or.inr ?_)
      · exact leavesAlone_of_ok (allocHeader_newBlock hb.list hn hle hpool)
      · rw [hpool.items]
        exact List.cons_ne_nil _ _

/-! ## A header that may be split -/

/-- Without slack there is nothing to take in. -/
theorem flushFront_none (hb : b.Holds m.blkSize (first :: rest)) (hzero : first.data = 0) :
    b.flushFront first rest = b := by
  have hlt := hb.lt
  rw [sizes_cons] at hlt
  have hsize : add32 first.size 0 = first.size := wrapAdd_eq (by omega)
  have hcap : add32 b.capacity 0 = b.capacity := wrapAdd_eq hb.capacity_lt
  have hsame : flushed first = first := by
    rw [flushed, hzero, hsize, ← hzero]
  rw [flushFront, hsame, ← hb.list, hzero, hcap]

theorem leavesAlone_split (hm : m.Sound) (hb : b.Holds m.blkSize (first :: rest))
    (hn : first.data < n) :
    LeavesAlone m b n false ↔ first.data = 0 ∨ n - first.data ≤ m.freeBytes := by
  obtain ⟨free, hpool⟩ := hm.pool
  have hroom := hm.room
  rw [hpool.items, List.length_map] at hroom
  have hsplit := allocHeader_split (m := m) hb.list hn
  rw [hpool.freeBytes]
  by_cases henough : n - first.data ≤ free.length * m.blkSize
  · refine iff_of_true ?_ (Or.inr henough)
    obtain ⟨new, left, -, heq⟩ := alloc_ok (b := b.flushFront first rest) hpool hm.blkSize_pos rfl
      henough true true
    rw [heq] at hsplit
    exact leavesAlone_of_ok hsplit
  · have hcap : (b.flushFront first rest).capacity < 2 ^ 32 := Nat.mod_lt _ (by decide)
    obtain ⟨free', haddrs, -, heq⟩ :=
      alloc_short hpool hroom hcap (Nat.lt_of_not_le henough) true true
    rw [heq] at hsplit
    simp only [ok_bind, Bool.false_eq_true, if_false] at hsplit
    by_cases hzero : first.data = 0
    · refine iff_of_true ?_ (Or.inl hzero)
      have hsame := flushFront_none hb hzero
      refine leavesAlone_of_err hsplit hpool hb rfl haddrs ?_ ?_
      · change (b.flushFront first rest).blkList = b.blkList
        rw [hsame]
      · change (b.flushFront first rest).capacity = b.capacity
        rw [hsame]
    · refine iff_of_false ?_ (not_or.mpr ⟨hzero, henough⟩)
      intro h
      -- the first block has moved to the start of its payload
      have hlist : (flushed first :: rest).map some = b.blkList := (h _ _ _ hsplit rfl).1
      rw [hb.list, List.map_cons, List.map_cons] at hlist
      have hfirst : flushed first = first := by simpa using hlist
      exact hzero (congrArg PktBlock.data hfirst).symm

/-- **A failing alloc_header leaves everything as it was** exactly if it does not get
as far as a missing block with the header in place or slack taken in. -/
theorem leavesAlone_iff (hm : m.Sound) (hb : b.Holds m.blkSize blks) (hne : blks ≠ [])
    (n : Nat) (isCont : Bool) : LeavesAlone m b n isCont ↔ FailsCleanly m b n isCont := by
  cases hblks : blks with
  | nil => exact absurd hblks hne
  | cons first rest =>
    rw [hblks] at hb
    have hfront := (Cursor.frontSlack_eq hb).1
    rw [FailsCleanly, hfront]
    by_cases hin : n ≤ first.data
    · refine iff_of_true ?_ (Or.inl hin)
      exact leavesAlone_of_ok (allocHeader_inPlace hb.list hin isCont)
    · have hlt := Nat.lt_of_not_le hin
      cases isCont with
      | true =>
        rw [leavesAlone_cont hm hb hlt]
        simp [hin]
      | false =>
        rw [leavesAlone_split hm hb hlt]
        simp [hin]

/-- A pool with one free block of eight bytes. -/
def oneFree : PktManager where
  blkSize := 8
  pktBlk := ⟨2, [some ⟨1, 0, 0, List.replicate 8 0⟩]⟩
  pktBuf := ⟨1, []⟩

/-- Four bytes behind `slack` unused ones. -/
def fourBytes (slack : Nat) : PktBuffer where
  capacity := 4
  blkList := [some ⟨0, 4, slack, List.replicate 8 1⟩]
  pos := 0
  curBlk := .at 0
  blkOffset := some slack
  ref := 1

theorem oneFree_sound : oneFree.Sound :=
  ⟨by decide, by decide, ⟨[⟨1, 0, 0, List.replicate 8 0⟩], rfl, by decide⟩, by decide⟩

theorem leavesAlone_without_slack : LeavesAlone oneFree (fourBytes 0) 20 false := by
  have hb : (fourBytes 0).Holds 8 [⟨0, 4, 0, List.replicate 8 1⟩] :=
    ⟨rfl, by decide, rfl, by decide⟩
  exact (leavesAlone_iff oneFree_sound hb (by decide) 20 false).mpr (by decide)

/-- A header of 20 bytes in front of two bytes of slack, with one block free; and
one of six bytes in one piece, with none. -/
theorem not_leavesAlone :
    oneFree.Sound ∧ (fourBytes 2).Holds 8 [⟨0, 4, 2, List.replicate 8 1⟩] ∧
      ¬ LeavesAlone oneFree (fourBytes 2) 20 false ∧
      ¬ LeavesAlone { oneFree with pktBlk := ⟨2, []⟩ } (fourBytes 2) 6 true := by
  refine ⟨oneFree_sound, ⟨rfl, by decide, rfl, by decide⟩, fun h => ?_, fun h => ?_⟩
  · exact absurd (h _ _ _ rfl rfl).1 (by decide)
  · exact absurd (h _ _ _ rfl rfl).2.1 (by decide)

end PktBuffer

end TinyTcp.Pkt
