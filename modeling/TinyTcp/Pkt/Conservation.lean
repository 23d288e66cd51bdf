/-
TinyTcp.Pkt.Conservation — any sequence of layout operations on several
buffers acts on byte strings and neither loses nor doubles a block.

`World.WellFormed live w` is the invariant: every buffer in `live` holds
blocks as `Holds` says, the free list has blocks with full payloads, and
the blocks of the free list and of the live buffers together, told apart
by their addresses, are pairwise different and fit into the pool.
`blocksIn live w` is that collection. `LayoutEffect` says what a call does
to the bytes; the contents of fresh space are whatever the memory held.

Only `alloc` and `alloc_header` can run out of blocks (`Op.mayFail`). A run
is a `Lib.run` of `layoutNext`, in which these two are steps if they report
success and every other call is one; that `remove_header` and `merge_buf`
do succeed is part of `LayoutStep`. `merge_buf` takes the other buffer out
of use.
-/
import TinyTcp.Lib.Run
import TinyTcp.Pkt.Layout
import TinyTcp.Pkt.World
import Mathlib.Algebra.BigOperators.Group.Finset.Basic

namespace TinyTcp.Pkt

open TinyTcp.Lib PktBuffer

/-! ## The blocks of a world -/

namespace World

/-- The blocks of the free list. -/
def free (w : World) : List PktBlock := w.mgr.pktBlk.items.reduceOption

/-- The addresses of the blocks of a buffer. -/
def held (w : World) (i : BufId) : Multiset Nat := addrs (w.bufs i).blkList.reduceOption

/-- The addresses of all blocks that are free or in a buffer of `live`. -/
def blocksIn (live : Finset BufId) (w : World) : Multiset Nat :=
  (addrs w.free : Multiset Nat) + ∑ i ∈ live, w.held i

structure WellFormed (live : Finset BufId) (w : World) : Prop where
  blkSize : 1 ≤ w.mgr.blkSize
  pool : w.mgr.Pool w.free
  bufs : ∀ i ∈ live, ∃ blks, (w.bufs i).Holds w.mgr.blkSize blks
  nodup : (w.blocksIn live).Nodup
  room : (w.blocksIn live).card ≤ w.mgr.pktBlk.cap

variable {live : Finset BufId} {w : World}

theorem held_of_list {i : BufId} {blks : List PktBlock} (h : (w.bufs i).blkList = blks.map some) :
    w.held i = addrs blks := by
  rw [held, h, reduceOption_map_some]

theorem free_of_pool {free : List PktBlock} (h : w.mgr.Pool free) : w.free = free := by
  rw [World.free, h.items, reduceOption_map_some]

/-- The free list and one buffer account for no more than all blocks. -/
theorem WellFormed.room_of_mem (h : w.WellFormed live) {i : BufId} (hi : i ∈ live)
    {blks : List PktBlock} (hlist : (w.bufs i).blkList = blks.map some) :
    w.free.length + blks.length ≤ w.mgr.pktBlk.cap := by
  have hroom := h.room
  rw [blocksIn, ← Finset.add_sum_erase live _ hi, Multiset.card_add, Multiset.card_add,
    held_of_list hlist, Multiset.coe_card, Multiset.coe_card] at hroom
  simp only [addrs, List.length_map] at hroom
  omega

/-- A change of one buffer and of the free list, with blocks that come from
`out` and go to `out'`. -/
theorem blocksIn_put_add {m : PktManager} {b : PktBuffer} {i : BufId} (hi : i ∈ live)
    {out out' : Multiset Nat}
    (hsum : (addrs m.pktBlk.items.reduceOption : Multiset Nat) +
        (addrs b.blkList.reduceOption : Multiset Nat) + out' =
      (addrs w.free : Multiset Nat) + w.held i + out) :
    (w.put m i b).blocksIn live + out' = w.blocksIn live + out := by
  have hothers : ∑ j ∈ live.erase i, (w.put m i b).held j = ∑ j ∈ live.erase i, w.held j := by
    refine Finset.sum_congr rfl fun j hj => ?_
    simp only [held, w.put_of_ne (Finset.ne_of_mem_erase hj)]
  have hself : (w.put m i b).held i = (addrs b.blkList.reduceOption : Multiset Nat) := by
    simp only [held, put_self]
  calc (w.put m i b).blocksIn live + out'
      = (addrs m.pktBlk.items.reduceOption : Multiset Nat) +
          ((w.put m i b).held i + ∑ j ∈ live.erase i, (w.put m i b).held j) + out' := by
        rw [Finset.add_sum_erase live _ hi]
        rfl
    _ = (addrs w.free : Multiset Nat) + w.held i + out + ∑ j ∈ live.erase i, w.held j := by
        rw [hothers, hself, ← add_assoc, add_right_comm, hsum]
    _ = w.blocksIn live + out := by
        rw [add_right_comm, add_assoc (addrs w.free : Multiset Nat), Finset.add_sum_erase live _ hi]
        rfl

/-- A change of one buffer and of the free list that keeps the blocks of
the two together keeps all blocks. -/
theorem blocksIn_put {m : PktManager} {b : PktBuffer} {i : BufId} (hi : i ∈ live)
    (hperm : (addrs m.pktBlk.items.reduceOption ++ addrs b.blkList.reduceOption).Perm
      (addrs w.free ++ addrs (w.bufs i).blkList.reduceOption)) :
    (w.put m i b).blocksIn live = w.blocksIn live := by
  have hself : (addrs m.pktBlk.items.reduceOption : Multiset Nat) +
      (addrs b.blkList.reduceOption : Multiset Nat) + 0 =
        (addrs w.free : Multiset Nat) + w.held i + 0 :=
    congrArg (· + 0) (Multiset.coe_eq_coe.mpr hperm)
  have hsum := blocksIn_put_add hi hself
  rwa [add_zero, add_zero] at hsum

/-- What a call of one buffer has to leave behind for the invariant. -/
theorem WellFormed.put (h : w.WellFormed live) {i : BufId} (hi : i ∈ live) {b : PktBuffer}
    {blks blks' free' : List PktBlock} (hold : (w.bufs i).blkList = blks.map some)
    (hr : Reshaped w.mgr w.free blks b free' blks') :
    (w.put (w.mgr.withFree free') i b).WellFormed live ∧
      (w.put (w.mgr.withFree free') i b).blocksIn live = w.blocksIn live := by
  have hpool : (w.mgr.withFree free').Pool free' := PktManager.pool_withFree hr.payload
  have hblocks : (w.put (w.mgr.withFree free') i b).blocksIn live = w.blocksIn live := by
    refine blocksIn_put hi ?_
    rw [hpool.items, hr.holds.list, hold]
    simp only [reduceOption_map_some]
    exact hr.addrs
  refine ⟨⟨h.blkSize, ?_, ?_, ?_, ?_⟩, hblocks⟩
  · rw [free_of_pool (w := w.put (w.mgr.withFree free') i b) hpool]
    exact hpool
  · intro j hj
    by_cases hji : j = i
    · rw [hji, put_self]
      exact ⟨blks', hr.holds⟩
    · rw [put_of_ne _ hji]
      exact h.bufs j hj
  · rw [hblocks]
    exact h.nodup
  · rw [hblocks]
    exact h.room

end World

/-! ## The calls and their effect on the bytes -/

/-- What the caller of a layout operation has to see to: the buffers are in
use, the capacity stays below `2 ^ 32`, the header to remove is there. -/
def LayoutCall (s : World × Finset BufId) : Op → Prop
  | .alloc i size _ _ => i ∈ s.2 ∧ (s.1.bufs i).capacity + size < 2 ^ 32
  | .allocHeader i size _ => i ∈ s.2 ∧ (s.1.bufs i).capacity + size < 2 ^ 32
  | .removeHeader i size =>
      i ∈ s.2 ∧ (s.1.bufs i).blkList ≠ [] ∧ size ≤ (s.1.bufs i).capacity
  | .mergeBuf i buf =>
      i ∈ s.2 ∧ buf ∈ s.2 ∧ i ≠ buf ∧ (s.1.bufs i).capacity + (s.1.bufs buf).capacity < 2 ^ 32
  | _ => False

instance (s : World × Finset BufId) : ∀ op, Decidable (LayoutCall s op)
  | .alloc .. => inferInstanceAs (Decidable (_ ∧ _))
  | .allocHeader .. => inferInstanceAs (Decidable (_ ∧ _))
  | .removeHeader .. => inferInstanceAs (Decidable (_ ∧ _ ∧ _))
  | .mergeBuf .. => inferInstanceAs (Decidable (_ ∧ _ ∧ _ ∧ _))
  | .resize .. => inferInstanceAs (Decidable False)
  | .setContHeader .. => inferInstanceAs (Decidable False)
  | .resetAccess .. => inferInstanceAs (Decidable False)
  | .seek .. => inferInstanceAs (Decidable False)
  | .read .. => inferInstanceAs (Decidable False)
  | .write .. => inferInstanceAs (Decidable False)
  | .fill .. => inferInstanceAs (Decidable False)
  | .copy .. => inferInstanceAs (Decidable False)

/-- Only the buffers of `touched` have changed. -/
def SameBut (w w' : World) (touched : List BufId) : Prop :=
  ∀ j, j ∉ touched → w'.bufs j = w.bufs j

def LayoutEffect (w : World) (op : Op) (w' : World) : Prop :=
  match op with
  | .alloc i size _ insertFront =>
      SameBut w w' [i] ∧ ∃ fresh : List UInt8, fresh.length = size ∧
        (w'.bufs i).bytes =
          if insertFront then fresh ++ (w.bufs i).bytes else (w.bufs i).bytes ++ fresh
  | .allocHeader i size isCont =>
      SameBut w w' [i] ∧ (∃ fresh : List UInt8, fresh.length = size ∧
        (w'.bufs i).bytes = fresh ++ (w.bufs i).bytes) ∧
      (isCont = true → 1 ≤ size →
        ∃ first rest, (w'.bufs i).blkList = some first :: rest ∧ size ≤ first.size)
  | .removeHeader i size =>
      SameBut w w' [i] ∧ (w'.bufs i).bytes = (w.bufs i).bytes.drop size
  | .mergeBuf i buf =>
      SameBut w w' [i, buf] ∧ (w'.bufs i).bytes = (w.bufs i).bytes ++ (w.bufs buf).bytes ∧
        (w'.bufs buf).blkList = []
  | _ => True

/-- The calls that need blocks from the pool. -/
def Op.mayFail : Op → Bool
  | .alloc .. => true
  | .allocHeader .. => true
  | _ => false

/-- A call that does not need blocks, or gets them. -/
def layoutNext (s : World × Finset BufId) (op : Op) : Option (World × Finset BufId) :=
  match s.1.step op with
  | .ok (r, w) => if r.succeeded || !op.mayFail then some (w, liveAfter s.2 op) else none
  | .error _ => none

/-- What holds after a call: it does not fault, it returns `NET_ERR_OK` if it needs no
blocks, and unless it was short of them it had its effect and kept the invariant and all
blocks. -/
def LayoutStep (live : Finset BufId) (w : World) (op : Op) : Prop :=
  ∃ r w', w.step op = .ok (r, w') ∧ (op.mayFail = false → r = .err .ok) ∧
    (op.mayFail = false ∨ r.succeeded = true →
      LayoutEffect w op w' ∧ w'.WellFormed (liveAfter live op) ∧
        w'.blocksIn (liveAfter live op) = w.blocksIn live)

theorem SameBut.put (w : World) (m : PktManager) (i : BufId) (b : PktBuffer) :
    SameBut w (w.put m i b) [i] := by
  intro j hj
  rw [List.mem_singleton] at hj
  exact w.put_of_ne hj

variable {live : Finset BufId} {w : World}

/-! ## One call -/

/-- A call that leaves a reshaped buffer. -/
theorem LayoutStep.of_reshaped (h : w.WellFormed live) {i : BufId} (hi : i ∈ live)
    {blks : List PktBlock} (hold : (w.bufs i).blkList = blks.map some) {op : Op} {r : Reply}
    {b : PktBuffer} {free' blks' : List PktBlock}
    (heq : w.step op = .ok (r, w.put (w.mgr.withFree free') i b))
    (hr : Reshaped w.mgr w.free blks b free' blks') (hlive : liveAfter live op = live)
    (hreply : op.mayFail = false → r = .err .ok)
    (heffect : LayoutEffect w op (w.put (w.mgr.withFree free') i b)) : LayoutStep live w op := by
  obtain ⟨hwf, hblocks⟩ := h.put hi hold hr
  refine ⟨r, _, heq, hreply, fun _ => ⟨heffect, ?_, ?_⟩⟩
  · rw [hlive]
    exact hwf
  · rw [hlive]
    exact hblocks

/-- A call that is short of blocks promises nothing. -/
theorem LayoutStep.of_failed {op : Op} {r : Reply} {w' : World} (heq : w.step op = .ok (r, w'))
    (hop : op.mayFail = true) (hr : r.succeeded = false) : LayoutStep live w op := by
  refine ⟨r, w', heq, fun hnot => ?_, fun hok => ?_⟩
  · rw [hop] at hnot
    exact Bool.noConfusion hnot
  · rw [hop, hr] at hok
    exact hok.elim Bool.noConfusion Bool.noConfusion

theorem bytes_joined {new old : List PktBlock} (ins : Bool) :
    content (joined ins new old) =
      if ins then content new ++ content old else content old ++ content new := by
  cases ins <;> simp [joined]

theorem alloc_layout (h : w.WellFormed live) {i : BufId} (hi : i ∈ live) {size : Nat}
    (hlt : (w.bufs i).capacity + size < 2 ^ 32) (f ins : Bool) :
    LayoutStep live w (.alloc i size f ins) := by
  obtain ⟨blks, hb⟩ := h.bufs i hi
  by_cases hn : size ≤ w.free.length * w.mgr.blkSize
  · obtain ⟨new, rest, hcarved, heq⟩ := alloc_ok h.pool h.blkSize hb.list hn f ins
    have hr := alloc_reshaped h.pool hb hlt hcarved ins
    refine .of_reshaped h hi hb.list (World.step_alloc heq) hr rfl Bool.noConfusion
      ⟨SameBut.put w _ i _, content new, ?_, ?_⟩
    · rw [content_length hcarved.ok, hcarved.sizes]
    · rw [World.put_self, hr.holds.bytes, hb.bytes, bytes_joined]
  · have hroom := h.room_of_mem hi hb.list
    obtain ⟨free', -, -, heq⟩ := alloc_short (b := w.bufs i) (n := size) h.pool (by omega)
      (by omega) (Nat.lt_of_not_le hn) f ins
    exact .of_failed (World.step_alloc heq) rfl rfl

theorem allocHeader_layout (h : w.WellFormed live) {i : BufId} (hi : i ∈ live) {size : Nat}
    (hlt : (w.bufs i).capacity + size < 2 ^ 32) (isCont : Bool) :
    LayoutStep live w (.allocHeader i size isCont) := by
  obtain ⟨blks, hb⟩ := h.bufs i hi
  have hself : w.put w.mgr i = w.put (w.mgr.withFree w.free) i := by rw [h.pool.withFree_self]
  cases hblks : blks with
  | nil =>
    have heq := allocHeader_empty (m := w.mgr) (by rw [hb.list, hblks, List.map_nil]) size isCont
    exact .of_failed (World.step_allocHeader heq) rfl rfl
  | cons first rest =>
    rw [hblks] at hb
    have hfirst : first.Ok w.mgr.blkSize := hb.ok first List.mem_cons_self
    have hcap := hb.capacity
    rw [sizes_cons] at hcap
    by_cases hfits : size ≤ first.data
    · -- the header takes slack of the first block
      have heq := allocHeader_inPlace (m := w.mgr) hb.list hfits isCont
      have hr := inPlace_reshaped h.pool hb hlt hfits
      have hsize : add32 first.size size = first.size + size := wrapAdd_eq (by omega)
      have hstep := World.step_allocHeader heq
      rw [hself] at hstep
      refine .of_reshaped h hi hb.list hstep hr rfl Bool.noConfusion
        ⟨SameBut.put w _ i _, ⟨slice first.payload (first.data - size) size, ?_, ?_⟩, ?_⟩
      · have hpay := hfirst.payload
        have hf := hfirst.fits
        exact length_slice_of_le (by omega)
      · rw [World.put_self, hr.holds.bytes, hb.bytes, content_cons, content_cons, hsize,
          grow_front_window hfits, List.append_assoc]
      · intro _ _
        rw [World.put_self]
        refine ⟨_, _, rfl, ?_⟩
        rw [hsize]
        exact Nat.le_add_left size first.size
    · cases isCont with
      | true =>
        by_cases hbig : size ≤ w.mgr.blkSize
        · cases hfree : w.free with
          | nil =>
            have heq := allocHeader_noBlock (m := w.mgr) hb.list (Nat.lt_of_not_le hfits) hbig
              (by rw [← hfree]; exact h.pool)
            exact .of_failed (World.step_allocHeader heq) rfl rfl
          | cons blk free' =>
            -- the header gets a block of its own
            have hpool : w.mgr.Pool (blk :: free') := by
              rw [← hfree]
              exact h.pool
            have heq := allocHeader_newBlock hb.list (Nat.lt_of_not_le hfits) hbig hpool
            have hr := newBlock_reshaped hpool hb hlt (n := size) (by omega) hbig
            have hpay := hpool.payload blk List.mem_cons_self
            rw [← hfree] at hr
            refine .of_reshaped h hi hb.list (World.step_allocHeader heq) hr rfl Bool.noConfusion
              ⟨SameBut.put w _ i _, ⟨slice blk.payload (w.mgr.blkSize - size) size, ?_, ?_⟩, ?_⟩
            · exact length_slice_of_le (by omega)
            · rw [World.put_self, hr.holds.bytes, hb.bytes, content_cons]
              rfl
            · intro _ _
              rw [World.put_self]
              exact ⟨_, _, rfl, Nat.le_refl size⟩
        · have heq := allocHeader_tooBig (m := w.mgr) hb.list (Nat.lt_of_not_le hfits)
            (Nat.lt_of_not_le hbig)
          exact .of_failed (World.step_allocHeader heq) rfl rfl
      | false =>
        -- the slack, then new blocks in front
        have heq := allocHeader_split (m := w.mgr) hb.list (Nat.lt_of_not_le hfits)
        have hflush := flushFront_holds hb (by omega)
        have hcapf : (w.bufs i |>.flushFront first rest).capacity =
            (w.bufs i).capacity + first.data := wrapAdd_eq (by omega)
        by_cases hn : size - first.data ≤ w.free.length * w.mgr.blkSize
        · obtain ⟨new, free', hcarved, halloc⟩ :=
            alloc_ok h.pool h.blkSize hflush.list hn true true
          have hr := alloc_reshaped h.pool hflush (by omega) hcarved true
          simp only [halloc, ok_bind, if_true] at heq
          refine .of_reshaped h hi hb.list (World.step_allocHeader heq)
            ⟨hr.payload, hr.holds, hr.addrs⟩ rfl Bool.noConfusion
            ⟨SameBut.put w _ i _, ⟨content new ++ slice first.payload 0 first.data, ?_, ?_⟩, ?_⟩
          · have hpay := hfirst.payload
            have hf := hfirst.fits
            rw [List.length_append, content_length hcarved.ok, hcarved.sizes,
              length_slice_of_le (by omega)]
            omega
          · rw [World.put_self, hr.holds.bytes, hb.bytes, bytes_joined, if_pos rfl, content_cons,
              content_cons, flushed_window (by omega)]
            simp only [List.append_assoc]
          · intro hf
            exact Bool.noConfusion hf
        · have hroom := h.room_of_mem hi hb.list
          obtain ⟨free', -, -, halloc⟩ := alloc_short (b := (w.bufs i).flushFront first rest)
            h.pool (by omega) hflush.capacity_lt (Nat.lt_of_not_le hn) true true
          simp only [halloc, ok_bind, Bool.false_eq_true, if_false] at heq
          exact .of_failed (World.step_allocHeader heq) rfl rfl

theorem removeHeader_layout (h : w.WellFormed live) {i : BufId} (hi : i ∈ live) {size : Nat}
    (hne : (w.bufs i).blkList ≠ []) (hle : size ≤ (w.bufs i).capacity) :
    LayoutStep live w (.removeHeader i size) := by
  obtain ⟨blks, hb⟩ := h.bufs i hi
  have hblks : blks ≠ [] := by
    intro hnil
    rw [hb.list, hnil] at hne
    exact hne rfl
  have heq := removeHeader_ok h.pool hb hblks (h.room_of_mem hi hb.list) hle
  have hr := removeHeader_reshaped h.pool hb hle
  refine .of_reshaped h hi hb.list (World.step_removeHeader heq) hr rfl (fun _ => rfl)
    ⟨SameBut.put w _ i _, ?_⟩
  rw [World.put_self, hr.holds.bytes, hb.bytes, cutFront_content size blks hb.ok]

theorem mergeBuf_layout (h : w.WellFormed live) {i buf : BufId} (hi : i ∈ live)
    (hbuf : buf ∈ live) (hne : i ≠ buf)
    (hlt : (w.bufs i).capacity + (w.bufs buf).capacity < 2 ^ 32) :
    LayoutStep live w (.mergeBuf i buf) := by
  obtain ⟨blks, hb⟩ := h.bufs i hi
  obtain ⟨blks', hb'⟩ := h.bufs buf hbuf
  have hmerged := merge_holds hb hb' hlt
  obtain ⟨w', hw'⟩ : ∃ w', w' = (w.put (w.mgr.releasePktbuffer buf) i { w.bufs i with
      blkList := (w.bufs i).blkList ++ (w.bufs buf).blkList
      capacity := add32 (w.bufs i).capacity (w.bufs buf).capacity }).putBuf buf
      { w.bufs buf with
          blkList := [], curBlk := (w.bufs buf).curBlk.spliced i (w.bufs i).blkList.length } := ⟨_, rfl⟩
  have hself : w'.bufs i = { w.bufs i with
      blkList := (w.bufs i).blkList ++ (w.bufs buf).blkList
      capacity := add32 (w.bufs i).capacity (w.bufs buf).capacity } := by
    rw [hw', World.putBuf_of_ne _ hne, World.put_self]
  have hother : ∀ j, j ≠ i → j ≠ buf → w'.bufs j = w.bufs j := by
    intro j hji hjb
    rw [hw', World.putBuf_of_ne _ hjb, World.put_of_ne _ hji]
  have hmgr : w'.mgr = w.mgr.releasePktbuffer buf := by rw [hw', World.putBuf_mgr, World.put_mgr]
  have hfree : w'.free = w.free := by
    rw [World.free, World.free, hmgr]
    rfl
  -- the blocks of the two buffers are now in the first
  have hblocks : w'.blocksIn (live.erase buf) = w.blocksIn live := by
    have hi' : i ∈ live.erase buf := Finset.mem_erase.mpr ⟨hne, hi⟩
    have hrest : ∑ j ∈ (live.erase buf).erase i, w'.held j =
        ∑ j ∈ (live.erase buf).erase i, w.held j := by
      refine Finset.sum_congr rfl fun j hj => ?_
      have hji := Finset.ne_of_mem_erase hj
      have hjb := Finset.ne_of_mem_erase (Finset.mem_of_mem_erase hj)
      rw [World.held, World.held, hother j hji hjb]
    have hheld : w'.held i = w.held buf + w.held i := by
      rw [World.held, hself, World.held_of_list hb.list, World.held_of_list hb'.list, hb.list,
        hb'.list, ← List.map_append, reduceOption_map_some, addrs_append, add_comm,
        Multiset.coe_add]
    rw [World.blocksIn, World.blocksIn, hfree, ← Finset.add_sum_erase live _ hbuf,
      ← Finset.add_sum_erase (live.erase buf) _ hi', ← Finset.add_sum_erase (live.erase buf) _ hi',
      hrest, hheld, add_assoc]
  refine ⟨.err .ok, w', by rw [hw']; rfl, fun _ => rfl,
    fun _ => ⟨⟨?_, ?_, ?_⟩, ⟨?_, ?_, ?_, ?_, ?_⟩, hblocks⟩⟩
  · intro j hj
    simp only [List.mem_cons, List.not_mem_nil, or_false, not_or] at hj
    exact hother j hj.1 hj.2
  · rw [hself, hmerged.bytes, hb.bytes, hb'.bytes, content_append]
  · rw [hw', World.putBuf_self]
  · rw [hmgr]
    exact h.blkSize
  · rw [hfree, hmgr]
    exact ⟨h.pool.items, h.pool.payload⟩
  · intro j hj
    obtain ⟨hjb, hjl⟩ := Finset.mem_erase.mp hj
    rw [hmgr]
    by_cases hji : j = i
    · rw [hji, hself]
      exact ⟨_, hmerged⟩
    · rw [hother j hji hjb]
      exact h.bufs j hjl
  · rw [liveAfter, hblocks]
    exact h.nodup
  · rw [liveAfter, hblocks, hmgr]
    exact h.room

theorem layout_step (h : w.WellFormed live) {op : Op} (hop : LayoutCall (w, live) op) :
    LayoutStep live w op := by
  cases op with
  | alloc i size f ins => exact alloc_layout h hop.1 hop.2 f ins
  | allocHeader i size isCont => exact allocHeader_layout h hop.1 hop.2 isCont
  | removeHeader i size => exact removeHeader_layout h hop.1 hop.2.1 hop.2.2
  | mergeBuf i buf => exact mergeBuf_layout h hop.1 hop.2.1 hop.2.2.1 hop.2.2.2
  | _ => exact hop.elim

/-! ## Sequences of calls -/

/-- Every state of a run of layout calls, in which no `alloc` and no `alloc_header` was short
of blocks, is well formed and has the blocks of the first state. The next call does not
fault; `remove_header` and `merge_buf` return `NET_ERR_OK` and have their effect on the
bytes, `alloc` and `alloc_header` have theirs if they report success. -/
theorem layout_run (h : w.WellFormed live) (ops : List Op) (w' : World) (live' : Finset BufId)
    (hcalls : Along layoutNext LayoutCall (w, live) ops)
    (hrun : run layoutNext (w, live) ops = some (w', live')) :
    w'.WellFormed live' ∧ w'.blocksIn live' = w.blocksIn live ∧
      ∀ op, LayoutCall (w', live') op → LayoutStep live' w' op := by
  have hinv : w'.WellFormed live' ∧ w'.blocksIn live' = w.blocksIn live := by
    have hstep : ∀ (s : World × Finset BufId) op (s' : World × Finset BufId),
        s.1.WellFormed s.2 ∧ s.1.blocksIn s.2 = w.blocksIn live → LayoutCall s op →
        layoutNext s op = some s' →
        s'.1.WellFormed s'.2 ∧ s'.1.blocksIn s'.2 = w.blocksIn live := by
      rintro ⟨w₁, live₁⟩ op ⟨w₂, live₂⟩ ⟨hwf, hblocks⟩ hop hnext
      obtain ⟨r, w₃, heq, -, hr⟩ := layout_step hwf hop
      simp only [layoutNext, heq] at hnext
      by_cases hok : (r.succeeded || !op.mayFail) = true
      · rw [if_pos hok] at hnext
        rw [Bool.or_eq_true, Bool.not_eq_true'] at hok
        obtain ⟨-, hwf', hblocks'⟩ := hr hok.symm
        simp only [Option.some.injEq, Prod.mk.injEq] at hnext
        obtain ⟨rfl, rfl⟩ := hnext
        exact ⟨hwf', hblocks'.trans hblocks⟩
      · rw [if_neg hok] at hnext
        cases hnext
    exact run_induction hstep ops (w, live) (w', live') ⟨h, rfl⟩ hcalls hrun
  exact ⟨hinv.1, hinv.2, fun op hop => layout_step hinv.1 hop⟩

/-- Two packets without blocks, and a pool of six blocks of four bytes. -/
def emptyPackets : World where
  mgr := {
    blkSize := 4
    pktBlk := ⟨6, (List.range 6).map fun a => some ⟨a, 0, 0, [1, 2, 3, 4]⟩⟩
    pktBuf := ⟨2, []⟩ }
  bufs _ := .new

def someLayoutCalls : List Op :=
  [.alloc 0 5 true false, .allocHeader 0 4 false, .alloc 1 3 false true, .removeHeader 0 2,
    .allocHeader 1 2 true, .mergeBuf 0 1]

theorem layout_run_two_packets :
    ∃ w' live', run layoutNext (emptyPackets, {0, 1}) someLayoutCalls = some (w', live') ∧
      w'.WellFormed live' ∧ w'.blocksIn live' = emptyPackets.blocksIn {0, 1} ∧
      ∀ op, LayoutCall (w', live') op → LayoutStep live' w' op := by
  have hwf : emptyPackets.WellFormed {0, 1} := by
    refine ⟨by decide, ⟨by decide, by decide⟩, fun i _ => ⟨[], rfl, by simp, rfl, by decide⟩,
      by decide, by decide⟩
  have hsome : (run layoutNext (emptyPackets, {0, 1}) someLayoutCalls).isSome = true := by
    decide
  obtain ⟨⟨w', live'⟩, hrun⟩ := Option.isSome_iff_exists.mp hsome
  exact ⟨w', live', hrun, layout_run hwf someLayoutCalls w' live' (by decide) hrun⟩

end TinyTcp.Pkt
