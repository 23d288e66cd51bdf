/-
TinyTcp.Net.Inventory — where every buffer and every block of the receive
path is.

Each buffer is in the pool, in the in-queue, or claimed by a thread, and a
`Stage` says what its holder relies on. Each block is in the free list, in
a buffer, or loose in the local variables of a thread. `Books` is the
invariant; it names the claims and the loose blocks of the threads, so a
thread that moves carries those of the other one along unchanged.

The lemmas below are the moves: taking and giving a block or a buffer,
putting a packet into the queue and getting it out, and writing to a
buffer one has.
-/
import TinyTcp.Net.RecvPath
import TinyTcp.Lib.Claims
import TinyTcp.Pkt.Conservation

namespace TinyTcp.Net

open TinyTcp.Lib TinyTcp.Pkt

/-! ## Stages -/

/-- In the pool, getting blocks for so many bytes, a packet, on its way
back to the pool, or out of everyone's sight. -/
inductive Stage where
  | blank
  | fresh (len : Nat)
  | parcel
  | boxes
  | lost
  deriving DecidableEq, Repr

/-- A packet on the receive path. Its capacity is the number of its bytes,
or zero after a late `m_capacity = 0` of the last owner. -/
structure Parcel (B : Nat) (b : PktBuffer) (blks : List PktBlock) : Prop where
  list : b.blkList = blks.map some
  ok : ∀ blk ∈ blks, blk.Ok B
  lt : sizes blks < 2 ^ 32
  capacity : b.capacity = sizes blks ∨ b.capacity = 0
  ref : b.ref = 1

def Stage.Meets (B : Nat) : Stage → PktBuffer → Prop
  | .blank, b => b.blkList = []
  | .fresh len, b => b.blkList = [] ∧ b.ref = 1 ∧ (b.capacity = len ∨ b.capacity = 0)
  | .parcel, b => ∃ blks, Parcel B b blks
  | .boxes, b => ∃ blks : List PktBlock, b.blkList = blks.map some ∧
      ∀ blk ∈ blks, blk.payload.length = B
  | .lost, _ => True

/-- The late `m_capacity = 0` harms nobody. -/
theorem Stage.meets_zero {B : Nat} {b : PktBuffer} (t : Stage) (h : t.Meets B b) :
    t.Meets B { b with capacity := 0 } := by
  cases t with
  | blank => exact h
  | fresh len => exact ⟨h.1, h.2.1, Or.inr rfl⟩
  | parcel =>
    obtain ⟨blks, hp⟩ := h
    exact ⟨blks, hp.list, hp.ok, hp.lt, Or.inr rfl, hp.ref⟩
  | boxes => exact h
  | lost => trivial

/-! ## The blocks of an alloc -/

/-- The block as `alloc` cuts it for `left` more bytes, at either end of its payload. -/
def cutBlk (blkSize : Nat) (allocFront : Bool) (left : Nat) (blk : PktBlock) : PktBlock :=
  { blk with
    size := min left blkSize, data := if allocFront then blkSize - min left blkSize else 0 }

theorem cutBlk_ok {B left : Nat} {blk : PktBlock} (hB : 1 ≤ B) (hleft : 1 ≤ left)
    (hpay : blk.payload.length = B) (f : Bool) : (cutBlk B f left blk).Ok B := by
  have hfits : (if f then B - min left B else 0) + min left B ≤ B := by
    cases f with
    | true =>
      rw [if_pos rfl]
      omega
    | false =>
      rw [if_neg Bool.false_ne_true]
      omega
  exact ⟨Nat.le_min.mpr ⟨hleft, hB⟩, hfits, hpay⟩

/-- A block more in the local variables. -/
theorem addrs_concat_add (blks : List PktBlock) (blk : PktBlock) (loose : Multiset Nat) :
    (addrs (blks ++ [blk]) : Multiset Nat) + loose =
      blk.addr ::ₘ ((addrs blks : Multiset Nat) + loose) := by
  rw [addrs_append, ← Multiset.coe_add, add_right_comm, add_comm]
  rfl

/-! ## The books -/

abbrev BufClaims := Multiset (BufId × Stage)

/-- What the pool and the queue hold. -/
def Stack.shelved (s : Stack) : BufClaims :=
  (s.mgr.pktBuf.items : Multiset BufId).map (·, Stage.blank) +
    (s.netif.inQ.items : Multiset BufId).map (·, Stage.parcel)

/-- All buffers of `live` and all blocks of `total` are accounted for by
the pools, the queue, the buffers, and the threads with their `claims` and
their `loose` blocks. -/
structure Books (B : Nat) (live : Finset BufId) (total : Multiset Nat) (s : Stack)
    (claims : BufClaims) (loose : Multiset Nat) : Prop where
  pos : 1 ≤ B
  lt : B < 2 ^ 32
  blkSize : s.mgr.blkSize = B
  pool : s.mgr.Pool s.free
  blocks : s.blocksIn live + loose = total
  blkRoom : total.card ≤ s.mgr.pktBlk.cap
  bufRoom : live.card ≤ s.mgr.pktBuf.cap
  held : Lib.Held (Stage.Meets B) live.val s.bufs (s.shelved + claims)

namespace Books

variable {B : Nat} {live : Finset BufId} {total : Multiset Nat} {s s' : Stack}
  {claims : BufClaims} {loose : Multiset Nat} {x : BufId} {t : Stage} {blk : PktBlock}

/-! ## Blocks -/

/-- Blocks move between the free list and a thread. -/
theorem trade (h : Books B live total s claims loose) {m : PktManager} {free' : List PktBlock}
    {loose' : Multiset Nat} (hpool : m.Pool free') (hB : m.blkSize = s.mgr.blkSize)
    (hcap : m.pktBlk.cap = s.mgr.pktBlk.cap) (hbuf : m.pktBuf = s.mgr.pktBuf)
    (hsum : (addrs free' : Multiset Nat) + loose' = (addrs s.free : Multiset Nat) + loose) :
    Books B live total (s.putMgr m) claims loose' := by
  have hfree : (s.putMgr m).free = free' := World.free_of_pool (w := (s.putMgr m).toWorld) hpool
  refine ⟨h.pos, h.lt, hB.trans h.blkSize, ?_, ?_, ?_, ?_, ?_⟩
  · rw [hfree]
    exact hpool
  · calc (s.putMgr m).blocksIn live + loose'
        = (addrs free' : Multiset Nat) + ∑ i ∈ live, s.held i + loose' := by
          rw [World.blocksIn, hfree]
          rfl
      _ = (addrs s.free : Multiset Nat) + loose + ∑ i ∈ live, s.held i := by
          rw [add_right_comm, hsum]
      _ = total := by
          rw [add_right_comm]
          exact h.blocks
  · exact h.blkRoom.trans hcap.ge
  · exact h.bufRoom.trans (congrArg Fifo.cap hbuf).ge
  · have hshelved : (s.putMgr m).shelved = s.shelved := by
      unfold Stack.shelved
      change (m.pktBuf.items : Multiset BufId).map _ + _ = _
      rw [hbuf]
      rfl
    rw [hshelved]
    exact h.held

/-- `get_pktblock` with a block in the free list. -/
theorem takeBlk (h : Books B live total s claims loose) (hne : s.mgr.pktBlk.items ≠ []) :
    ∃ blk m, s.mgr.getPktblock = .ok (some blk, m) ∧ m.blkSize = B ∧ blk.payload.length = B ∧
      Books B live total (s.putMgr m) claims (blk.addr ::ₘ loose) := by
  have hpool := h.pool
  cases hfree : s.free with
  | nil =>
    rw [hpool.items, hfree] at hne
    exact absurd rfl hne
  | cons blk rest =>
    rw [hfree] at hpool
    refine ⟨blk.reset, { s.mgr with pktBlk := { s.mgr.pktBlk with items := rest.map some } }, ?_,
      h.blkSize, ?_, ?_⟩
    · unfold PktManager.getPktblock Fifo.pop
      rw [hpool.items]
      rfl
    · exact (hpool.payload blk List.mem_cons_self).trans h.blkSize
    · refine h.trade ⟨rfl, ?_⟩ rfl rfl rfl ?_
      · intro blk' hblk'
        exact hpool.payload blk' (List.mem_cons_of_mem _ hblk')
      · rw [hfree, addrs_cons, ← Multiset.cons_coe, Multiset.cons_add, Multiset.add_cons]
        rfl

/-- `get_pktblock` without one. -/
theorem noBlk (hnil : s.mgr.pktBlk.items = []) : s.mgr.getPktblock = .ok (none, s.mgr) := by
  unfold PktManager.getPktblock Fifo.pop
  rw [hnil]

/-- `release_pktblock` by a thread that has the block: there is room for it. -/
theorem giveBlk (h : Books B live total s claims (blk.addr ::ₘ loose))
    (hpay : blk.payload.length = B) :
    Books B live total (s.putMgr (s.mgr.releasePktblock (some blk))) claims loose := by
  have hroom : s.free.length + [blk].length ≤ s.mgr.pktBlk.cap := by
    have hcard := h.blkRoom
    rw [← h.blocks, World.blocksIn, Multiset.card_add, Multiset.card_add, Multiset.coe_card,
      Multiset.card_cons] at hcard
    simp only [addrs, List.length_map, List.length_singleton] at hcard ⊢
    omega
  have heq : s.mgr.releasePktblock (some blk) = { s.mgr with
      pktBlk := { s.mgr.pktBlk with items := (s.free ++ [blk]).map some } } :=
    PktManager.releaseAll_eq h.pool hroom
  rw [heq]
  refine h.trade ⟨rfl, ?_⟩ rfl rfl rfl ?_
  · intro blk' hblk'
    rcases List.mem_append.mp hblk' with hin | hin
    · exact h.pool.payload blk' hin
    · rw [List.mem_singleton.mp hin]
      exact hpay.trans h.blkSize.symm
  · rw [addrs_append, ← Multiset.coe_add, add_assoc]
    rfl

/-! ## Buffers -/

/-- The claims, with one of them in front. -/
theorem held_cons (h : Books B live total s ((x, t) ::ₘ claims) loose) :
    Lib.Held (Stage.Meets B) live.val s.bufs ((x, t) ::ₘ (s.shelved + claims)) := by
  have hheld := h.held
  rw [Multiset.add_cons] at hheld
  exact hheld

theorem meets (h : Books B live total s ((x, t) ::ₘ claims) loose) : t.Meets B (s.bufs x) :=
  h.held_cons.met_cons

theorem mem_live (h : Books B live total s ((x, t) ::ₘ claims) loose) : x ∈ live :=
  h.held_cons.mem_cells (Multiset.mem_cons_self _ _)

/-- A thread writes to its buffer, and moves blocks between it and its
local variables. -/
theorem write (h : Books B live total s ((x, t) ::ₘ claims) loose) (u : Stage) {b : PktBuffer}
    {loose' : Multiset Nat} (hb : u.Meets B b)
    (hsum : (addrs b.blkList.reduceOption : Multiset Nat) + loose' = s.held x + loose) :
    Books B live total (s.putPkt s.mgr x b) ((x, u) ::ₘ claims) loose' := by
  refine ⟨h.pos, h.lt, h.blkSize, h.pool, ?_, h.blkRoom, h.bufRoom, ?_⟩
  · rw [← h.blocks]
    refine World.blocksIn_put_add h.mem_live ?_
    rw [add_assoc, hsum, ← add_assoc]
    rfl
  · rw [Multiset.add_cons]
    exact h.held_cons.write live.nodup hb

/-- A thread relies on something else about its buffer. -/
theorem relax (h : Books B live total s ((x, t) ::ₘ claims) loose) (u : Stage)
    (hu : u.Meets B (s.bufs x)) :
    Books B live total s ((x, u) ::ₘ claims) loose := by
  refine ⟨h.pos, h.lt, h.blkSize, h.pool, h.blocks, h.blkRoom, h.bufRoom, ?_⟩
  rw [Multiset.add_cons]
  exact h.held_cons.relax hu

/-- The late write of `free`, to whatever buffer. -/
theorem zero (h : Books B live total s claims loose) (x : BufId) :
    Books B live total (s.putPkt s.mgr x { s.bufs x with capacity := 0 }) claims loose := by
  refine ⟨h.pos, h.lt, h.blkSize, h.pool, ?_, h.blkRoom, h.bufRoom, ?_⟩
  · rw [← h.blocks]
    have hheld : ∀ i, (s.putPkt s.mgr x { s.bufs x with capacity := 0 }).held i = s.held i := by
      intro i
      unfold World.held
      by_cases hi : i = x
      · rw [hi, Stack.putPkt_self]
      · rw [Stack.putPkt_of_ne s hi]
    unfold World.blocksIn
    simp only [hheld]
    rfl
  · exact h.held.write_stable fun t ht => t.meets_zero ht

/-! ## The pool of buffers and the queue -/

/-- Buffers move between the pool, the queue and the threads. -/
theorem reshelve (h : Books B live total s claims loose) {claims' : BufClaims}
    (hbufs : s'.bufs = s.bufs) (hB : s'.mgr.blkSize = s.mgr.blkSize)
    (hblk : s'.mgr.pktBlk = s.mgr.pktBlk) (hcap : s'.mgr.pktBuf.cap = s.mgr.pktBuf.cap)
    (hsum : s'.shelved + claims' = s.shelved + claims) :
    Books B live total s' claims' loose := by
  have hfree : s'.free = s.free := by
    unfold World.free
    rw [hblk]
  have hblocks : s'.blocksIn live = s.blocksIn live := by
    unfold World.blocksIn World.held
    rw [hfree, hbufs]
  refine ⟨h.pos, h.lt, hB.trans h.blkSize, ⟨?_, ?_⟩, ?_, ?_, ?_, ?_⟩
  · rw [hblk, hfree]
    exact h.pool.items
  · rw [hB, hfree]
    exact h.pool.payload
  · rw [hblocks]
    exact h.blocks
  · rw [hblk]
    exact h.blkRoom
  · rw [hcap]
    exact h.bufRoom
  · rw [hbufs, hsum]
    exact h.held

theorem popBuf (h : Books B live total s claims loose) {pool : List BufId}
    (hpool : s.mgr.pktBuf.items = x :: pool) :
    Books B live total
      (s.putMgr { s.mgr with pktBuf := { s.mgr.pktBuf with items := pool } })
      ((x, .blank) ::ₘ claims) loose := by
  refine h.reshelve rfl rfl rfl rfl ?_
  have hshelved : s.shelved = (x, .blank) ::ₘ
      (s.putMgr { s.mgr with pktBuf := { s.mgr.pktBuf with items := pool } }).shelved := by
    unfold Stack.shelved
    rw [hpool, ← Multiset.cons_coe, Multiset.map_cons, Multiset.cons_add]
    rfl
  rw [hshelved, Multiset.cons_add, Multiset.add_cons]

/-- `release_pktbuffer` by the thread that has the buffer: there is room for it. -/
theorem pushBuf (h : Books B live total s ((x, t) ::ₘ claims) loose)
    (hblank : (s.bufs x).blkList = []) :
    Books B live total (s.putMgr (s.mgr.releasePktbuffer x)) claims loose := by
  have hroom : s.mgr.pktBuf.items.length < s.mgr.pktBuf.cap := by
    have hcard := h.held.card
    unfold Stack.shelved at hcard
    simp only [Multiset.card_add, Multiset.card_map, Multiset.coe_card, Multiset.card_cons,
      Finset.card_val] at hcard
    have hcap := h.bufRoom
    omega
  have heq : s.mgr.releasePktbuffer x = { s.mgr with
      pktBuf := { s.mgr.pktBuf with items := s.mgr.pktBuf.items ++ [x] } } := by
    unfold PktManager.releasePktbuffer
    rw [Fifo.push_of_room hroom]
  rw [heq]
  refine (h.relax .blank hblank).reshelve rfl rfl rfl rfl ?_
  unfold Stack.shelved
  change ((s.mgr.pktBuf.items ++ [x] : List BufId) : Multiset BufId).map (·, Stage.blank) + _ + _ = _
  rw [← Multiset.coe_add, Multiset.map_add, add_right_comm _ _ (Multiset.map _ _), add_assoc]
  rfl

/-- A packet goes into the queue. -/
theorem enqueue (h : Books B live total s ((x, .parcel) ::ₘ claims) loose)
    (hworld : s'.toWorld = s.toWorld)
    (hqueue : s'.netif.inQ.items = s.netif.inQ.items ++ [x]) :
    Books B live total s' claims loose := by
  have hmgr : s'.mgr = s.mgr := congrArg World.mgr hworld
  refine h.reshelve (congrArg World.bufs hworld) (by rw [hmgr]) (by rw [hmgr]) (by rw [hmgr]) ?_
  unfold Stack.shelved
  rw [hmgr, hqueue, ← Multiset.coe_add, Multiset.map_add, ← add_assoc, add_assoc _ _ claims]
  rfl

/-- And comes out of it. -/
theorem dequeue (h : Books B live total s claims loose) {queue : List BufId}
    (hqueue : s.netif.inQ.items = x :: queue) :
    Books B live total
      { s with netif := { s.netif with inQ := { s.netif.inQ with items := queue } } }
      ((x, .parcel) ::ₘ claims) loose := by
  refine h.reshelve rfl rfl rfl rfl ?_
  unfold Stack.shelved
  rw [hqueue, ← Multiset.cons_coe, Multiset.map_cons, Multiset.add_cons, Multiset.add_cons,
    Multiset.cons_add]

end Books

end TinyTcp.Net
