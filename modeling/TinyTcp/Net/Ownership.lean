/-
TinyTcp.Net.Ownership — who owns a packet after `netif_out`.

A caller may hope for one rule: after success the interface has the packet
in one of its queues or has released it, once; after an error the packet
is still the caller's (`OwnershipKept`). `netifOut_ownership_iff` says for
each way through `netif_out` when that is so:

- loop: not if the packet fits into the out-queue but no packet fits into
  the in-queue, as `send` releases what it cannot deliver and reports it;
- ethernet, own address: only if the frame is sent, as `link_out` releases
  the packet before it reports an error;
- ethernet, another address: only if the ARP request fails, as nothing
  happens to the packet itself.

"Once" is counted in the queues and in the pool of buffers.
-/
import TinyTcp.Net.Loopback
import TinyTcp.Net.RoundTrip

namespace TinyTcp.Net

open TinyTcp.Lib TinyTcp.Pkt PktBuffer

/-! ## The rule -/

def Stack.queuedTimes (s : Stack) (buf : BufId) : Nat :=
  s.netif.inQ.items.count buf + s.netif.outQ.items.count buf

def Stack.releasedTimes (s : Stack) (buf : BufId) : Nat := s.mgr.pktBuf.items.count buf

/-- The interface took the packet over, or the caller still has it. -/
def OwnershipKept (s : Stack) (ip : IpAddr) (buf : BufId) : Prop :=
  ∃ e s', netifOut s ip buf = .ok (e, s') ∧
    if e.isErr then s'.queuedTimes buf = 0 ∧ s'.releasedTimes buf = 0
    else (s'.queuedTimes buf = 1 ∧ s'.releasedTimes buf = 0) ∨
      (s'.queuedTimes buf = 0 ∧ s'.releasedTimes buf = 1)

/-- A packet its holder may hand over: well formed, with one reference,
and out of the pool and the queues; in the pool its place is free. -/
structure Held (s : Stack) (buf : BufId) : Prop where
  mgr : s.mgr.Sound
  holds : ∃ blks, (s.bufs buf).Holds s.mgr.blkSize blks
  ref : (s.bufs buf).ref = 1
  unqueued : s.queuedTimes buf = 0
  unreleased : s.releasedTimes buf = 0
  room : s.mgr.pktBuf.items.length < s.mgr.pktBuf.cap
  queue : ∀ x ∈ s.netif.outQ.items, ∃ blks : List PktBlock, (s.bufs x).blkList = blks.map some
  pool : ∀ x ∈ s.mgr.pktBuf.items, (s.bufs x).blkList = []

/-- The blocks an ARP request needs: one for its 28 bytes, one for the
padding, and one for the header unless the first block has room for it. -/
def ArpFits (m : PktManager) : Prop :=
  2 ≤ m.pktBlk.items.length ∧
    (arpPktSize + etherHdrSize ≤ m.blkSize ∨ 3 ≤ m.pktBlk.items.length)

/-- `make_arp_request` reports an error: there is no buffer, or there are
no blocks for the request, or the request cannot be sent. -/
def ArpFails (s : Stack) : Prop :=
  s.mgr.pktBuf.items = [] ∨ s.mgr.freeBytes < arpPktSize ∨
    (arpPktSize ≤ s.mgr.blkSize ∧ ¬ (ArpFits s.mgr ∧ QueueRoom s.netif etherBroadcastAddr))

/-- When the rule is kept. -/
def KeepsOwnership (s : Stack) (ip : IpAddr) (buf : BufId) : Prop :=
  match s.netif.type with
  | .loop =>
      s.netif.outQ.cap ≤ s.netif.outQ.items.length ∨ s.netif.inQ.items.length < s.netif.inQ.cap
  | .ether =>
      if s.netif.ipaddr = ip then
        FrameFits s.mgr (s.bufs buf) ∧ QueueRoom s.netif etherBroadcastAddr
      else ArpFails s

/-! ## free -/

section Free

variable {s : Stack} {buf x : BufId}

@[simp] theorem freeBuf_netif (s : Stack) (x : BufId) : (s.freeBuf x).netif = s.netif := rfl

theorem free_pktBuf (m : PktManager) (self : BufId) (b : PktBuffer) :
    (PktBuffer.free m self b).1.pktBuf =
      if b.ref - 1 = 0 then (m.pktBuf.push self).2 else m.pktBuf := by
  unfold PktBuffer.free
  by_cases hzero : b.ref - 1 = 0
  · rw [if_pos hzero]
    simp only [if_pos hzero]
    rfl
  · rw [if_neg hzero]
    simp only [if_neg hzero]

/-- The last reference goes: the buffer is in the pool. -/
theorem releasedTimes_free (href : (s.bufs buf).ref = 1)
    (hroom : s.mgr.pktBuf.items.length < s.mgr.pktBuf.cap) :
    (s.freeBuf buf).releasedTimes buf = s.releasedTimes buf + 1 := by
  have hpool : (s.freeBuf buf).mgr.pktBuf = (s.mgr.pktBuf.push buf).2 := by
    have hfree := free_pktBuf s.mgr buf (s.bufs buf)
    rw [if_pos (by rw [href]; rfl)] at hfree
    exact hfree
  rw [Stack.releasedTimes, hpool, Fifo.push_of_room hroom, List.count_append,
    List.count_singleton_self]
  rfl

/-- Another buffer comes or goes. -/
theorem releasedTimes_free_of_ne (hne : x ≠ buf) :
    (s.freeBuf x).releasedTimes buf = s.releasedTimes buf := by
  have hpool : (s.freeBuf x).mgr.pktBuf = _ := free_pktBuf s.mgr x (s.bufs x)
  rw [Stack.releasedTimes, hpool]
  split
  · unfold Fifo.push
    split
    · rw [List.count_append, List.count_singleton, if_neg (by simpa using hne)]
      rfl
    · rfl
  · rfl

end Free

/-! ## One call -/

section Call

variable {s s' : Stack} {ip : IpAddr} {buf : BufId} {e : NetErr}

theorem ownershipKept_of_ok (h : netifOut s ip buf = .ok (.ok, s')) :
    OwnershipKept s ip buf ↔
      (s'.queuedTimes buf = 1 ∧ s'.releasedTimes buf = 0) ∨
        (s'.queuedTimes buf = 0 ∧ s'.releasedTimes buf = 1) := by
  constructor
  · rintro ⟨e', s'', heq, hkept⟩
    rw [h] at heq
    obtain ⟨rfl, rfl⟩ : NetErr.ok = e' ∧ s' = s'' := by simpa using heq
    exact hkept
  · intro hkept
    exact ⟨.ok, s', h, hkept⟩

theorem ownershipKept_of_err (h : netifOut s ip buf = .ok (e, s')) (herr : e.isErr = true) :
    OwnershipKept s ip buf ↔ s'.queuedTimes buf = 0 ∧ s'.releasedTimes buf = 0 := by
  constructor
  · rintro ⟨e', s'', heq, hkept⟩
    rw [h] at heq
    obtain ⟨rfl, rfl⟩ : e = e' ∧ s' = s'' := by simpa using heq
    rw [if_pos herr] at hkept
    exact hkept
  · intro hkept
    refine ⟨e, s', h, ?_⟩
    rw [if_pos herr]
    exact hkept

/-- Putting the packet into a queue it was not in. -/
theorem queuedTimes_of_queued {dest : HwAddr} (h : Held s buf) (hq : Queued s s' dest buf) :
    s'.queuedTimes buf = 1 := by
  have hzero := h.unqueued
  unfold Stack.queuedTimes at hzero ⊢
  unfold Queued at hq
  split at hq
  · rw [hq]
    simp only [List.count_append, List.count_singleton_self]
    omega
  · rw [hq]
    simp only [List.count_append, List.count_singleton_self]
    omega

/-! ## Loop -/

theorem loop_ownership (h : Held s buf) (htype : s.netif.type = .loop) :
    OwnershipKept s ip buf ↔ KeepsOwnership s ip buf := by
  have hzero := h.unqueued
  have hfresh := h.unreleased
  unfold Stack.queuedTimes at hzero
  unfold KeepsOwnership
  rw [htype]
  have hcall : netifOut s ip buf =
      (if (s.putBufToOutQueue buf).1.isErr then .ok (s.putBufToOutQueue buf)
      else LoopNet.send (s.putBufToOutQueue buf).2) := by
    unfold netifOut
    rw [if_neg (by rw [htype]; exact fun hne => hne rfl)]
  by_cases hout : s.netif.outQ.items.length < s.netif.outQ.cap
  · -- the front of the out-queue, and the rest of it
    obtain ⟨x, queue, hq⟩ : ∃ x queue, s.netif.outQ.items ++ [buf] = x :: queue := by
      cases s.netif.outQ.items with
      | nil => exact ⟨buf, [], rfl⟩
      | cons x queue => exact ⟨x, queue ++ [buf], rfl⟩
    have hcount : List.count buf (x :: queue) = 1 := by
      rw [← hq, List.count_append, List.count_singleton_self]
      omega
    have hlist : ∃ blks : List PktBlock, (s.bufs x).blkList = blks.map some := by
      have hx : x ∈ s.netif.outQ.items ++ [buf] := by
        rw [hq]
        exact List.mem_cons_self
      rcases List.mem_append.mp hx with hx | hx
      · exact h.queue x hx
      · obtain ⟨blks, hb⟩ := h.holds
        rw [List.mem_singleton.mp hx]
        exact ⟨blks, hb.list⟩
    obtain ⟨blks, hlist⟩ := hlist
    rw [Stack.putBufToOutQueue_room hout] at hcall
    by_cases hin : s.netif.inQ.items.length < s.netif.inQ.cap
    · refine iff_of_true ?_ (Or.inr hin)
      obtain ⟨s', hsend, hworld, hnetif⟩ := loopSend_room (s := { s with netif := { s.netif with
        outQ := { s.netif.outQ with items := s.netif.outQ.items ++ [buf] } } }) hq hlist hin
      have hmgr : s'.mgr = s.mgr := by
        rw [hworld]
        rfl
      have houtQ : s'.netif.outQ.items = queue := by
        rw [hnetif]
        rfl
      rw [hsend] at hcall
      refine (ownershipKept_of_ok hcall).mpr (Or.inl ⟨?_, ?_⟩)
      · have hinQ' : s'.netif.inQ.items = s.netif.inQ.items ++ [x] := by rw [hnetif]
        rw [Stack.queuedTimes, hinQ', houtQ, List.count_append, List.count_singleton]
        rw [List.count_cons] at hcount
        omega
      · rw [Stack.releasedTimes, hmgr]
        exact hfresh
    · refine iff_of_false ?_ (not_or.mpr ⟨Nat.not_le.mpr hout, hin⟩)
      obtain ⟨s', hs'⟩ : ∃ s' : Stack, s' = Stack.fetched { s with netif := { s.netif with
        outQ := { s.netif.outQ with items := s.netif.outQ.items ++ [buf] } } } x blks queue :=
        ⟨_, rfl⟩
      have hsend := loopSend_full (s := { s with netif :=
        { s.netif with outQ := { s.netif.outQ with items := s.netif.outQ.items ++ [buf] } } })
        hq hlist (Nat.le_of_not_lt hin)
      rw [← hs'] at hsend
      have hmgr : s'.mgr = s.mgr := by
        rw [hs']
        rfl
      have hinQ : s'.netif.inQ.items = s.netif.inQ.items := by
        rw [hs']
        rfl
      have houtQ : s'.netif.outQ.items = queue := by
        rw [hs']
        rfl
      have href : (s'.bufs x).ref = (s.bufs x).ref := by
        rw [hs']
        change ((s.putPkt s.mgr x ((s.bufs x).rewound blks)).bufs x).ref = (s.bufs x).ref
        rw [Stack.putPkt_self]
        rfl
      rw [hsend] at hcall
      rw [ownershipKept_of_err hcall rfl]
      rintro ⟨hnone, hheld⟩
      by_cases hx : x = buf
      · -- the packet itself was released
        subst hx
        have hrel := releasedTimes_free (s := s') (href.trans h.ref)
          (by rw [hmgr]; exact h.room)
        omega
      · -- it is still in the out-queue
        rw [Stack.queuedTimes, freeBuf_netif, hinQ, houtQ] at hnone
        rw [List.count_cons_of_ne hx] at hcount
        omega
  · have hle := Nat.le_of_not_lt hout
    refine iff_of_true ?_ (Or.inl hle)
    rw [Stack.putBufToOutQueue_full hle] at hcall
    exact (ownershipKept_of_err hcall rfl).mpr ⟨hzero, hfresh⟩

/-! ## Ethernet -/

theorem netifOut_ether (htype : s.netif.type = .ether) {e : NetErr} {s' : Stack}
    (h : EtherNet.linkOut s ip buf = .ok (e, s')) :
    netifOut s ip buf = .ok (if e.isErr then e else .ok, s') := by
  unfold netifOut
  rw [if_pos (by rw [htype]; decide), h]
  cases hisErr : e.isErr with
  | false => simp [ok_bind, hisErr]
  | true => simp [ok_bind, hisErr]

/-- To its own address the interface sends the packet itself. -/
theorem own_ownership (h : Held s buf) (htype : s.netif.type = .ether)
    (hip : s.netif.ipaddr = ip) : OwnershipKept s ip buf ↔ KeepsOwnership s ip buf := by
  obtain ⟨blks, hb⟩ := h.holds
  unfold KeepsOwnership
  rw [htype]
  simp only [if_pos hip]
  by_cases hgoes : FrameFits s.mgr (s.bufs buf) ∧ QueueRoom s.netif etherBroadcastAddr
  · refine iff_of_true ?_ hgoes
    obtain ⟨s', hraw, hframed, hqueued⟩ := etherRawOut_ok h.mgr hb hgoes.1 protocolArp hgoes.2
    have hlink : EtherNet.linkOut s ip buf = .ok (.ok, s') := by
      unfold EtherNet.linkOut
      rw [if_pos hip, hraw]
      rfl
    refine (ownershipKept_of_ok (netifOut_ether htype hlink)).mpr (Or.inl ⟨?_, ?_⟩)
    · exact queuedTimes_of_queued h hqueued
    · rw [Stack.releasedTimes, hframed.pktBuf]
      exact h.unreleased
  · refine iff_of_false ?_ hgoes
    obtain ⟨e, m', b', hraw, herr, hpool, href⟩ := etherRawOut_err h.mgr hb protocolArp hgoes
    have hlink : EtherNet.linkOut s ip buf = .ok (e, (s.putPkt m' buf b').freeBuf buf) := by
      unfold EtherNet.linkOut
      rw [if_pos hip, hraw]
      simp only [ok_bind, herr, if_true]
    have hcall := netifOut_ether htype hlink
    rw [if_pos herr] at hcall
    rw [ownershipKept_of_err hcall herr]
    rintro ⟨-, hheld⟩
    -- `link_out` has released the packet
    have hrel := releasedTimes_free (s := s.putPkt m' buf b')
      (by rw [Stack.putPkt_self]; exact href h.ref)
      (by rw [Stack.putPkt_mgr, hpool]; exact h.room)
    omega

/-! ## The ARP request -/

variable {x : BufId} {pool : List BufId}

/-- Too few blocks for the request: its buffer goes back. -/
theorem makeRequest_short (ip : IpAddr) (hm : s.mgr.Sound) (hpool : s.mgr.pktBuf.items = x :: pool)
    (hshort : s.mgr.freeBytes < arpPktSize) :
    ∃ s' : Stack, EtherNet.makeRequest s ip = .ok (none, s'.freeBuf x) ∧ s'.netif = s.netif ∧
      s'.mgr.pktBuf.items = pool := by
  obtain ⟨m₀, hget, hsound, hB, hblk, hbuf⟩ := getPktbuffer_ok hm hpool
  have hzero : (s.bufs x).reset.capacity = 0 := rfl
  obtain ⟨m₁, halloc, hbuf₁⟩ := alloc_unfit (b := (s.bufs x).reset) hsound
    (by rw [hzero]; decide) (show m₀.freeBytes < arpPktSize by
      rw [PktManager.freeBytes, hblk, hB]; exact hshort) true false
  refine ⟨(s.putPkt m₀ x (s.bufs x).reset).putPkt m₁ x { (s.bufs x).reset with ref := 1 },
    ?_, rfl, ?_⟩
  · unfold EtherNet.makeRequest
    simp only [hget, Stack.putPkt_mgr, Stack.putPkt_self, halloc, ok_bind]
    rfl
  · rw [Stack.putPkt_mgr, hbuf₁, hbuf]

/-- Blocks below 28 bytes: the request is written behind its first block. -/
theorem makeRequest_fault (ip : IpAddr) (hm : s.mgr.Sound) (hpool : s.mgr.pktBuf.items = x :: pool)
    (hlist : (s.bufs x).blkList = []) (hfits : arpPktSize ≤ s.mgr.freeBytes)
    (hB : s.mgr.blkSize < arpPktSize) :
    EtherNet.makeRequest s ip = .error .outOfBounds := by
  obtain ⟨m₀, hget, hsound, hblkSize, hblk, -⟩ := getPktbuffer_ok hm hpool
  obtain ⟨m₁, b₁, blks, halloc, hf⟩ :=
    alloc_fresh (b := (s.bufs x).reset) hsound hlist rfl (n := arpPktSize)
      (by rw [PktManager.freeBytes, hblk, hblkSize]; exact hfits) (by decide)
  have hcont : setContHeader m₁ b₁ arpPktSize = .ok (.size, m₁, b₁) :=
    setContHeader_tooBig (Or.inr (by rw [hf.blkSize, hblkSize]; exact hB))
  have hstore : storeData b₁ (arpPkt s.netif.hwaddr s.netif.ipaddr ip) = .error .outOfBounds := by
    have hlist₁ := hf.cursor.holds.list
    cases hblks : blks with
    | nil =>
      have hcap := hf.cursor.holds.capacity
      rw [hf.capacity, hblks] at hcap
      cases hcap
    | cons first rest =>
      have hfirst := hf.cursor.holds.ok first (by rw [hblks]; exact List.mem_cons_self)
      have hplace := hf.place first (by rw [hblks]; exact List.mem_cons_self)
      have hpos := hfirst.pos
      rw [hblks, List.map_cons] at hlist₁
      unfold storeData
      simp only [hlist₁, store]
      rw [if_neg]
      · rfl
      · rw [arpPkt_length, hfirst.payload, hblkSize]
        omega
  unfold EtherNet.makeRequest
  simp only [hget, Stack.putPkt_mgr, Stack.putPkt_self, halloc, ok_bind, hcont, Stack.putPkt_netif,
    hstore]
  rfl

/-- The blocks a packet of one block at the end asks for when it is framed. -/
theorem frameFits_arp {m m' : PktManager} {b : PktBuffer} {blk : PktBlock}
    (hb : b.Holds m'.blkSize [blk]) (hsize : blk.size = arpPktSize)
    (hplace : blk.data + blk.size = m.blkSize) (hlt : m.blkSize < 2 ^ 32)
    (hB : m'.blkSize = m.blkSize) (htaken : m'.pktBlk.items.length + 1 = m.pktBlk.items.length) :
    FrameFits m' b ↔ ArpFits m := by
  have harp : arpPktSize = 28 := rfl
  have hhdr : etherHdrSize = 14 := rfl
  have hmin : etherDataMin = 46 := rfl
  have hcap : b.capacity = 28 := by
    rw [hb.capacity, sizes_cons, sizes_nil]
    omega
  have hfront : b.frontSlack = blk.data := by simp [frontSlack, hb.list]
  have hback : b.backSlack m'.blkSize = 0 := by
    rw [(Cursor.backSlack_eq (show b.Holds m'.blkSize ([] ++ [blk]) from hb) (by omega)).1, slack]
    omega
  have hneed : padNeed m'.blkSize b = 18 := by
    rw [padNeed, hback, hcap]
    decide
  have hfree : m'.freeBytes = m'.pktBlk.items.length * m.blkSize := by
    rw [PktManager.freeBytes, hB]
  rw [FrameFits, ArpFits, hneed, hfront, hfree, hB, ← htaken]
  -- none, one or more blocks are left
  rcases m'.pktBlk.items.length with _ | _ | k
  · omega
  · omega
  · have hmul : (k + 1 + 1) * m.blkSize = k * m.blkSize + m.blkSize + m.blkSize := by
      rw [Nat.succ_mul, Nat.succ_mul]
    omega

/-- Enough blocks: the request, in one block. -/
theorem makeRequest_made (ip : IpAddr) (hm : s.mgr.Sound) (hpool : s.mgr.pktBuf.items = x :: pool)
    (hlist : (s.bufs x).blkList = []) (hfits : arpPktSize ≤ s.mgr.freeBytes)
    (hB : arpPktSize ≤ s.mgr.blkSize) :
    ∃ s' blks, EtherNet.makeRequest s ip = .ok (some x, s') ∧ s'.netif = s.netif ∧
      s'.mgr.pktBuf.items = pool ∧ s'.mgr.Sound ∧ (s'.bufs x).Holds s'.mgr.blkSize blks ∧
      (FrameFits s'.mgr (s'.bufs x) ↔ ArpFits s.mgr) := by
  obtain ⟨m₀, hget, hsound, hblkSize, hblk, hbuf⟩ := getPktbuffer_ok hm hpool
  obtain ⟨m₁, b₁, blks, halloc, hf⟩ :=
    alloc_fresh (b := (s.bufs x).reset) hsound hlist rfl (n := arpPktSize)
      (by rw [PktManager.freeBytes, hblk, hblkSize]; exact hfits) (by decide)
  have hholds := hf.cursor.holds
  have hcap := hholds.capacity
  rw [hf.capacity] at hcap
  -- the request fills one block
  obtain ⟨first, rfl⟩ : ∃ first, blks = [first] := by
    have hfew := hf.few
    rw [hblkSize] at hfew
    rcases blks with _ | ⟨first, _ | ⟨second, rest⟩⟩
    · cases hcap
    · exact ⟨first, rfl⟩
    · have hmul : (second :: rest).length.succ * s.mgr.blkSize =
          rest.length * s.mgr.blkSize + s.mgr.blkSize + s.mgr.blkSize := by
        rw [List.length_cons, Nat.succ_mul, Nat.succ_mul]
      rw [List.length_cons, ← Nat.succ_eq_add_one, hmul] at hfew
      omega
  have hfirst : first.size = arpPktSize := by
    rw [hcap, sizes_cons, sizes_nil]
    omega
  have hcont : setContHeader m₁ b₁ arpPktSize = .ok (.ok, m₁, b₁) :=
    setContHeader_enough hholds.list hf.capacity.ge (by rw [hf.blkSize, hblkSize]; exact hB)
      hfirst.ge
  obtain ⟨blks', hstore, hlayout, hok, -⟩ :=
    storeData_ok hholds.list hholds.ok
      ((arpPkt_length s.netif.hwaddr s.netif.ipaddr ip).trans_le hfirst.ge)
  obtain ⟨blk, rfl⟩ : ∃ blk, blks' = [blk] :=
    List.length_eq_one_iff.mp (by simpa [layout] using congrArg List.length hlayout)
  obtain ⟨-, hsize, hdata⟩ : blk.addr = first.addr ∧ blk.size = first.size ∧
      blk.data = first.data := by simpa [layout] using hlayout
  have hsizes : sizes [blk] = arpPktSize := by
    rw [sizes_cons, sizes_nil]
    omega
  have hkept : PktBuffer.Holds m₁.blkSize { b₁ with blkList := [blk].map some } [blk] := by
    refine ⟨rfl, ?_, hf.capacity.trans hsizes.symm, by rw [hsizes]; decide⟩
    rw [hf.blkSize]
    exact hok
  refine ⟨(s.putPkt m₀ x (s.bufs x).reset).putPkt m₁ x { b₁ with blkList := [blk].map some },
    [blk], ?_, rfl, ?_, hf.sound, ?_, ?_⟩
  · unfold EtherNet.makeRequest
    simp only [hget, Stack.putPkt_mgr, Stack.putPkt_self, halloc, ok_bind, hcont,
      Stack.putPkt_netif, hstore]
    rfl
  · rw [Stack.putPkt_mgr, hf.pktBuf, hbuf]
  · rw [Stack.putPkt_self]
    exact hkept
  · rw [Stack.putPkt_mgr, Stack.putPkt_self]
    have hplace := hf.place first List.mem_cons_self
    have htaken := hf.taken
    rw [hblk] at htaken
    exact frameFits_arp hkept (by omega) (by omega) hm.blkSize_lt
      (hf.blkSize.trans hblkSize) htaken

/-- The buffer from the pool is not the packet. -/
theorem Held.pool_cons (h : Held s buf) (hpool : s.mgr.pktBuf.items = x :: pool) :
    x ≠ buf ∧ pool.count buf = 0 := by
  have hcount := h.unreleased
  rw [Stack.releasedTimes, hpool, List.count_eq_zero, List.mem_cons, not_or] at hcount
  exact ⟨fun hx => hcount.1 hx.symm, List.count_eq_zero.mpr hcount.2⟩

theorem netifOut_arp (buf : BufId) (htype : s.netif.type = .ether) (hip : s.netif.ipaddr ≠ ip)
    (h : EtherNet.makeArpRequest s ip = .ok (e, s')) :
    netifOut s ip buf = .ok (if e.isErr then e else .ok, s') := by
  refine netifOut_ether htype ?_
  unfold EtherNet.linkOut
  rw [if_neg hip, h]

/-- With a failed request the packet is where it was. -/
theorem ownershipKept_of_arp_err (h : Held s buf) (htype : s.netif.type = .ether)
    (hip : s.netif.ipaddr ≠ ip) (hcall : EtherNet.makeArpRequest s ip = .ok (e, s'))
    (herr : e.isErr = true) (hnetif : s'.netif = s.netif) (hheld : s'.releasedTimes buf = 0) :
    OwnershipKept s ip buf := by
  have hout := netifOut_arp buf htype hip hcall
  rw [if_pos herr] at hout
  refine (ownershipKept_of_err hout herr).mpr ⟨?_, hheld⟩
  rw [Stack.queuedTimes, hnetif]
  exact h.unqueued

/-- The request is queued, and it is not the packet. -/
theorem queuedTimes_of_other {dest : HwAddr} (hzero : s.queuedTimes buf = 0) (hne : x ≠ buf)
    (hq : Queued s s' dest x) : s'.queuedTimes buf = 0 := by
  have hsingle : List.count buf [x] = 0 := List.count_eq_zero.mpr (by simpa using hne.symm)
  unfold Stack.queuedTimes at hzero ⊢
  unfold Queued at hq
  split at hq
  · rw [hq]
    simp only [List.count_append, hsingle]
    omega
  · rw [hq]
    simp only [List.count_append, hsingle]
    omega

/-- With blocks of at least 28 bytes: if the request is sent the packet is
nowhere, and if not it is where it was. -/
theorem arp_ownership_made (h : Held s buf) (htype : s.netif.type = .ether)
    (hip : s.netif.ipaddr ≠ ip) (hpool : s.mgr.pktBuf.items = x :: pool)
    (hfits : arpPktSize ≤ s.mgr.freeBytes) (hB : arpPktSize ≤ s.mgr.blkSize) :
    OwnershipKept s ip buf ↔ ¬ (ArpFits s.mgr ∧ QueueRoom s.netif etherBroadcastAddr) := by
  obtain ⟨hne, hcount⟩ := h.pool_cons hpool
  have hlist := h.pool x (by rw [hpool]; exact List.mem_cons_self)
  obtain ⟨t, blks, hmake, hnetif, hpool', hsound, hholds, hiff⟩ :=
    makeRequest_made ip h.mgr hpool hlist hfits hB
  rw [← hiff, ← hnetif]
  by_cases hgoes : FrameFits t.mgr (t.bufs x) ∧ QueueRoom t.netif etherBroadcastAddr
  · refine iff_of_false ?_ (not_not.mpr hgoes)
    obtain ⟨s', hraw, hframed, hqueued⟩ :=
      etherRawOut_ok hsound hholds hgoes.1 protocolArp hgoes.2
    have hcall : EtherNet.makeArpRequest s ip = .ok (.ok, s') := by
      unfold EtherNet.makeArpRequest
      simp only [hmake, ok_bind, hraw]
      rfl
    rw [ownershipKept_of_ok (netifOut_arp buf htype hip hcall)]
    have hunqueued : s'.queuedTimes buf = 0 := by
      refine queuedTimes_of_other ?_ hne hqueued
      rw [Stack.queuedTimes, hnetif]
      exact h.unqueued
    have hheld : s'.releasedTimes buf = 0 := by
      rw [Stack.releasedTimes, hframed.pktBuf, hpool']
      exact hcount
    omega
  · refine iff_of_true ?_ hgoes
    obtain ⟨e, m', b', hraw, herr, hbuf, -⟩ := etherRawOut_err hsound hholds protocolArp hgoes
    have hcall : EtherNet.makeArpRequest s ip = .ok (e, (t.putPkt m' x b').freeBuf x) := by
      unfold EtherNet.makeArpRequest
      simp only [hmake, ok_bind, hraw, herr, if_true]
    refine ownershipKept_of_arp_err h htype hip hcall herr hnetif ?_
    rw [releasedTimes_free_of_ne hne, Stack.releasedTimes, Stack.putPkt_mgr, hbuf, hpool']
    exact hcount

/-- To other addresses only a request is sent. -/
theorem arp_ownership (h : Held s buf) (htype : s.netif.type = .ether)
    (hip : s.netif.ipaddr ≠ ip) : OwnershipKept s ip buf ↔ KeepsOwnership s ip buf := by
  unfold KeepsOwnership
  rw [htype]
  simp only [if_neg hip]
  unfold ArpFails
  cases hpool : s.mgr.pktBuf.items with
  | nil =>
    refine iff_of_true ?_ (Or.inl rfl)
    have hcall : EtherNet.makeArpRequest s ip = .ok (.none, s) := by
      unfold EtherNet.makeArpRequest EtherNet.makeRequest
      rw [s.getPktbuffer_nil hpool]
      rfl
    exact ownershipKept_of_arp_err h htype hip hcall rfl rfl h.unreleased
  | cons x pool =>
    obtain ⟨hne, hcount⟩ := h.pool_cons hpool
    by_cases hfits : arpPktSize ≤ s.mgr.freeBytes
    · by_cases hB : arpPktSize ≤ s.mgr.blkSize
      · rw [arp_ownership_made h htype hip hpool hfits hB]
        simp [hB, Nat.not_lt.mpr hfits]
      · -- the request is written where there is no memory
        have hlist := h.pool x (by rw [hpool]; exact List.mem_cons_self)
        have hfault := makeRequest_fault ip h.mgr hpool hlist hfits (Nat.lt_of_not_le hB)
        refine iff_of_false ?_ (by simp [hB, Nat.not_lt.mpr hfits])
        rintro ⟨e, s', hcall, -⟩
        unfold netifOut EtherNet.linkOut EtherNet.makeArpRequest at hcall
        rw [if_pos (by rw [htype]; decide), if_neg hip, hfault] at hcall
        cases hcall
    · refine iff_of_true ?_ (Or.inr (Or.inl (Nat.lt_of_not_le hfits)))
      obtain ⟨t, hmake, hnetif, hpool'⟩ :=
        makeRequest_short ip h.mgr hpool (Nat.lt_of_not_le hfits)
      have hcall : EtherNet.makeArpRequest s ip = .ok (.none, t.freeBuf x) := by
        unfold EtherNet.makeArpRequest
        simp only [hmake, ok_bind]
      refine ownershipKept_of_arp_err h htype hip hcall rfl hnetif ?_
      rw [releasedTimes_free_of_ne hne, Stack.releasedTimes, hpool']
      exact hcount

/-- **Ownership.** The rule is kept exactly in the cases of `KeepsOwnership`. -/
theorem netifOut_ownership_iff (h : Held s buf) :
    OwnershipKept s ip buf ↔ KeepsOwnership s ip buf := by
  cases htype : s.netif.type with
  | loop => exact loop_ownership h htype
  | ether =>
    by_cases hip : s.netif.ipaddr = ip
    · exact own_ownership h htype hip
    · exact arp_ownership h htype hip

end Call

/-- A loop interface with two places in its in-queue, where `waiting` is,
and packet 0. -/
def loopback (waiting : List BufId) : Stack where
  mgr := { blkSize := 48, pktBlk := ⟨2, []⟩, pktBuf := ⟨4, [1]⟩ }
  bufs i := if i = 0 then { PktBuffer.new with ref := 1 } else PktBuffer.new
  netif := {
    type := .loop, hwaddr := ⟨List.replicate 6 0, rfl⟩, ipaddr := ⟨[127, 0, 0, 1], rfl⟩
    inQ := ⟨2, waiting⟩, outQ := ⟨2, []⟩ }
  memBlock := ⟨2, [0, 1]⟩
  msgQueue := ⟨2, []⟩

theorem loopback_held {waiting : List BufId} (h : 0 ∉ waiting) : Held (loopback waiting) 0 where
  mgr := ⟨Nat.le_add_left 1 47, by simp [loopback], ⟨[], rfl, by simp⟩, Nat.zero_le 2⟩
  holds := ⟨[], rfl, by simp, rfl, by simp⟩
  ref := rfl
  unqueued := by simpa [Stack.queuedTimes, loopback] using List.count_eq_zero.mpr h
  unreleased := rfl
  room := by simp [loopback]
  queue := by simp [loopback]
  pool := by simp [loopback, PktBuffer.new]

theorem netifOut_ownership_loopback :
    OwnershipKept (loopback []) (loopback []).netif.ipaddr 0 :=
  (netifOut_ownership_iff (loopback_held (by decide))).mpr (Or.inr (by decide))

/-- A full in-queue: the caller gets an error, and the packet is in the pool. -/
theorem netifOut_released_on_error :
    Held (loopback [2, 3]) 0 ∧ ¬ OwnershipKept (loopback [2, 3]) (loopback [2, 3]).netif.ipaddr 0 := by
  refine ⟨loopback_held (by decide), ?_⟩
  rintro ⟨e, s', hcall, hkept⟩
  have hrun : (netifOut (loopback [2, 3]) (loopback [2, 3]).netif.ipaddr 0).map
      (fun r => (r.1, r.2.releasedTimes 0)) = .ok (.full, 1) := by decide
  rw [hcall] at hrun
  obtain ⟨rfl, hreleased⟩ : e = .full ∧ s'.releasedTimes 0 = 1 := by
    simpa [Except.map] using hrun
  rw [if_pos (by decide)] at hkept
  omega

end TinyTcp.Net
