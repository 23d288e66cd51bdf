/-
TinyTcp.Net.RoundTrip — a payload from the sender's buffer to the
receiver's.

The sender puts the payload into a fresh packet (`placePayload`),
`ether_raw_out` makes a frame of it and queues it, and `send_func` copies
it out. The receiver writes the bytes it captured into a packet of its own
blocks, which may have another size, queues it, and `link_in` decodes the
header. `send_receive` says that the captured frame is the one that was
built, and that the receiver decodes the sender's protocol from a header
that lies in one block.

Both sides start from `alloc` with its default flags on an empty buffer
(`alloc_fresh`), which puts the data at the ends of the blocks. So nothing
is left behind the last window, and the padding is exact.
-/
import TinyTcp.Net.Framing

namespace TinyTcp.Net

open TinyTcp.Lib TinyTcp.Pkt PktBuffer

/-! ## A fresh packet -/

section Fresh

variable {m : PktManager} {b : PktBuffer} {blks : List PktBlock}

/-- `n` bytes at the ends of their blocks, the cursor at the front. -/
structure Fresh (m : PktManager) (n : Nat) (m' : PktManager) (b' : PktBuffer)
    (blks : List PktBlock) : Prop where
  cursor : b'.Cursor m.blkSize blks 0
  capacity : b'.capacity = n
  place : ∀ blk ∈ blks, blk.data + blk.size = m.blkSize
  few : blks.length * m.blkSize < n + m.blkSize
  taken : m'.pktBlk.items.length + blks.length = m.pktBlk.items.length
  sound : m'.Sound
  blkSize : m'.blkSize = m.blkSize
  pktBuf : m'.pktBuf = m.pktBuf
  ref : b'.ref = 1

/-- `alloc(n)` on an empty buffer. -/
theorem alloc_fresh (hm : m.Sound) (hlist : b.blkList = []) (hcap : b.capacity = 0) {n : Nat}
    (hn : n ≤ m.freeBytes) (hlt : n < 2 ^ 31) :
    ∃ m' b' blks, alloc m b n true false = .ok (true, m', b') ∧ Fresh m n m' b' blks := by
  obtain ⟨free, hpool⟩ := hm.pool
  have hroom := hm.room
  rw [hpool.items, List.length_map] at hroom
  rw [hpool.freeBytes] at hn
  have hb : b.Holds m.blkSize [] := ⟨hlist, by simp, hcap, by decide⟩
  obtain ⟨new, rest, hcarved, heq⟩ := alloc_ok hpool hm.blkSize_pos hb.list hn true false
  have hr := alloc_reshaped hpool hb (by omega) hcarved false
  have hlen := hcarved.length
  have hcapacity : (b.allocated n (joined false new [])).capacity = n := by
    change add32 b.capacity n = n
    rw [hcap, add32, wrapAdd_eq (by omega), Nat.zero_add]
  refine ⟨_, _, _, heq, ⟨hr.holds, ?_, rfl, rewound_at hr.holds.ok _⟩, hcapacity, ?_, hcarved.few,
    ?_, hm.withFree hr.payload (by omega), rfl, rfl, rfl⟩
  · rw [← hr.holds.capacity, hcapacity]
    exact hlt
  · intro blk hblk
    simpa using hcarved.place blk hblk
  · rw [hpool.items]
    change (rest.map some).length + new.length = _
    rw [List.length_map, List.length_map]
    omega

/-- Without enough blocks it fails. -/
theorem freeBytes_of_alloc (hm : m.Sound) (hcap : b.capacity < 2 ^ 32) {n : Nat} {f ins : Bool}
    {m' : PktManager} {b' : PktBuffer} (h : alloc m b n f ins = .ok (true, m', b')) :
    n ≤ m.freeBytes := by
  by_contra hn
  obtain ⟨m'', heq, -⟩ := alloc_unfit hm hcap (Nat.lt_of_not_le hn) f ins
  rw [h] at heq
  simp at heq

/-- Writing as many bytes as there are. -/
theorem write_all (h : b.Cursor m.blkSize blks 0) {src : List UInt8}
    (hlen : src.length = b.capacity) (hpos : 0 < src.length) :
    ∃ b' blks', b.write (some src) src.length = .ok (.ok, b') ∧ b'.Holds m.blkSize blks' ∧
      layout blks' = layout blks ∧ content blks' = src ∧ b'.ref = b.ref := by
  have hcap := h.holds.capacity
  obtain ⟨b', blks', heq, hcur, hlayout, hcontent, href⟩ :=
    write_ok h (Nat.le_refl _) hpos (by omega)
  refine ⟨b', blks', heq, hcur.holds, hlayout, ?_, href⟩
  rw [hcontent, List.take_length]
  exact splice_all (by rw [content_length h.holds.ok]; omega)

/-- A caller's `alloc(n)` with the `write` of its payload, if there is one. -/
def placePayload (m : PktManager) (b : PktBuffer) (payload : List UInt8) :
    Except Fault (Bool × PktManager × PktBuffer) := do
  let (ok, m, b) ← alloc m b payload.length true false
  if !ok ∨ payload.length = 0 then .ok (ok, m, b)
  else
    let (_, b) ← b.write (some payload) payload.length
    .ok (true, m, b)

theorem placePayload_ok (hm : m.Sound) (hlist : b.blkList = []) (hcap : b.capacity = 0)
    {payload : List UInt8} (hlt : payload.length < 2 ^ 31) {m' : PktManager} {b' : PktBuffer}
    (h : placePayload m b payload = .ok (true, m', b')) :
    ∃ blks, b'.Holds m.blkSize blks ∧ content blks = payload ∧
      (∀ blk ∈ blks, blk.data + blk.size = m.blkSize) ∧ m'.Sound ∧ m'.blkSize = m.blkSize := by
  unfold placePayload at h
  cases halloc : alloc m b payload.length true false with
  | error e =>
    rw [halloc] at h
    cases h
  | ok r =>
    obtain ⟨ok, m₁, b₁⟩ := r
    simp only [halloc, ok_bind] at h
    cases ok with
    | false =>
      rw [if_pos (Or.inl (show (!false) = true from rfl))] at h
      cases h
    | true =>
      have hn := freeBytes_of_alloc hm (by rw [hcap]; decide) halloc
      obtain ⟨m₂, b₂, blks, heq, hf⟩ := alloc_fresh hm hlist hcap hn hlt
      rw [halloc] at heq
      simp only [Except.ok.injEq, Prod.mk.injEq, true_and] at heq
      obtain ⟨rfl, rfl⟩ := heq
      by_cases hzero : payload.length = 0
      · -- nothing to write
        rw [if_pos (Or.inr hzero)] at h
        simp only [Except.ok.injEq, Prod.mk.injEq, true_and] at h
        obtain ⟨rfl, rfl⟩ := h
        have hnil : blks = [] := hf.cursor.holds.capacity_eq_zero_iff.mp (hf.capacity.trans hzero)
        refine ⟨blks, hf.cursor.holds, ?_, hf.place, hf.sound, hf.blkSize⟩
        rw [hnil, List.length_eq_zero_iff.mp hzero, content_nil]
      · obtain ⟨b₃, blks₃, hwrite, hholds, hlayout, hcontent, -⟩ :=
          write_all hf.cursor hf.capacity.symm (Nat.pos_of_ne_zero hzero)
        rw [if_neg (by simp [hzero]), hwrite] at h
        simp only [ok_bind, Except.ok.injEq, Prod.mk.injEq, true_and] at h
        obtain ⟨rfl, rfl⟩ := h
        refine ⟨blks₃, hholds, hcontent, ?_, hf.sound, hf.blkSize⟩
        intro blk' hblk'
        obtain ⟨blk, hblk, hsize, hdata⟩ := exists_of_layout hlayout hblk'
        rw [← hsize, ← hdata]
        exact hf.place blk hblk

/-- Data at the ends of the blocks leaves no slack behind it. -/
theorem padExact_of_ends (hm : m.Sound) (hb : b.Holds m.blkSize blks)
    (hplace : ∀ blk ∈ blks, blk.data + blk.size = m.blkSize) : PadExact m.blkSize b := by
  unfold PadExact
  by_cases hzero : b.capacity = 0
  · exact Or.inl hzero
  · obtain ⟨init, tail, rfl⟩ := hb.exists_last hzero
    have htail : tail.data + tail.size = m.blkSize := hplace tail (by simp)
    have hslack : b.backSlack m.blkSize = 0 := by
      rw [(Cursor.backSlack_eq hb hm.blkSize_lt).1, slack, htail, Nat.sub_self]
    rw [hslack]
    omega

/-! ## The sender -/

/-- The frame of a placed payload, in a well-formed buffer. -/
theorem placed_frame {m' : PktManager} {b' : PktBuffer} {protocol : UInt16} {dest src : HwAddr}
    (hb : b.Holds m.blkSize blks) (hexact : PadExact m.blkSize b) (hlen : b.capacity ≤ etherMtu)
    (hframed : Framed m b (etherHdr dest src protocol) m' b') :
    (∃ blks', b'.Holds m.blkSize blks') ∧
      b'.bytes = etherFrame dest src protocol (content blks) := by
  have hmtu : etherMtu = 1500 := rfl
  have hhdr : etherHdrSize = 14 := rfl
  obtain ⟨rest, hbytes, hrest⟩ := hframed.bytes
  refine ⟨hframed.holds hexact (by omega), ?_⟩
  rw [hbytes, hrest.mpr hexact, etherHdr_eq, etherFrame, hb.bytes]
  simp only [List.append_nil, List.append_assoc]

/-- `send_func` copies out the packet at the front of the out-queue. -/
theorem sendFunc_ok {t : Stack} {buf : BufId} {queue : List BufId} {B : Nat}
    (hq : t.netif.outQ.items = buf :: queue) (hb : (t.bufs buf).Holds B blks)
    (hpos : 0 < (t.bufs buf).capacity)
    (hmax : (t.bufs buf).capacity ≤ etherHdrSize + etherMtu) :
    ∃ t', sendFunc t = .ok (some (content blks), t') := by
  have hcap := hb.capacity
  have hhdr : etherHdrSize = 14 := rfl
  have hmtu : etherMtu = 1500 := rfl
  have hlen : (content blks).length = sizes blks := content_length hb.ok
  have hrw : (List.replicate (etherHdrSize + etherMtu) (0 : UInt8)).length =
      etherHdrSize + etherMtu := List.length_replicate
  -- the cursor is reset twice
  have hcur : ((t.bufs buf).rewound blks).Cursor B blks 0 := hb.cursor_rewound (by omega)
  obtain ⟨b', hread, -, -⟩ := read_ok (hcur.holds.cursor_rewound hcur.lt)
    (show (t.bufs buf).capacity ≤ (List.replicate (etherHdrSize + etherMtu) (0 : UInt8)).length by
      omega) hpos (by omega)
  have hall : (splice (List.replicate (etherHdrSize + etherMtu) (0 : UInt8)) 0
      (slice (content blks) 0 (t.bufs buf).capacity)).take (t.bufs buf).capacity =
        content blks := by
    rw [hcap, ← hlen, slice_all, splice_zero, List.take_left]
  unfold sendFunc Stack.getBufFromOutQueue
  simp only [Fifo.pop, hq, resetAccess_eq hb.list, ok_bind, Stack.putPkt_self,
    resetAccess_eq hcur.holds.list]
  have hsame : ((t.bufs buf).rewound blks).capacity = (t.bufs buf).capacity := rfl
  simp only [hsame, hread, ok_bind, Option.map_some, hall]
  exact ⟨_, rfl⟩

/-! ## The receiver -/

/-- `get_pktbuffer` with a buffer in the pool. -/
theorem getPktbuffer_ok {s : Stack} {buf : BufId} {pool : List BufId} (hm : s.mgr.Sound)
    (hpool : s.mgr.pktBuf.items = buf :: pool) :
    ∃ m, s.getPktbuffer = (some buf, s.putPkt m buf (s.bufs buf).reset) ∧ m.Sound ∧
      m.blkSize = s.mgr.blkSize ∧ m.pktBlk = s.mgr.pktBlk ∧ m.pktBuf.items = pool := by
  exact ⟨_, s.getPktbuffer_cons hpool, hm.withPktBuf _, rfl, rfl, rfl⟩

/-- With enough buffers, blocks and room, `recv_func` queues the captured bytes. -/
theorem recvFunc_ok {r : Stack} {buf : BufId} {pool : List BufId} {data : List UInt8}
    (hm : r.mgr.Sound) (hpool : r.mgr.pktBuf.items = buf :: pool)
    (hlist : (r.bufs buf).blkList = []) (hpos : 0 < data.length) (hlt : data.length < 2 ^ 31)
    (hfree : data.length ≤ r.mgr.freeBytes)
    (hroom : r.netif.inQ.items.length < r.netif.inQ.cap) :
    ∃ r' blks, recvFunc r data = .ok r' ∧ r'.netif.inQ.items = r.netif.inQ.items ++ [buf] ∧
      (r'.bufs buf).Holds r.mgr.blkSize blks ∧ content blks = data := by
  obtain ⟨m₀, hget, hsound, hB, hblk, -⟩ := getPktbuffer_ok hm hpool
  obtain ⟨m₁, b₁, blks₁, halloc, hf⟩ :=
    alloc_fresh (b := (r.bufs buf).reset) hsound hlist rfl
      (show data.length ≤ m₀.freeBytes by rw [PktManager.freeBytes, hblk, hB]; exact hfree) hlt
  have hcur₂ := hf.cursor.holds.cursor_rewound hf.cursor.lt
  obtain ⟨b₃, blks₃, hwrite, hholds, -, hcontent, -⟩ := write_all hcur₂ hf.capacity.symm hpos
  obtain ⟨r', hput, hworld, hnetif⟩ := Stack.putBufToInQueue_room
    (s := (r.putPkt m₀ buf (r.bufs buf).reset).putPkt m₁ buf b₃) hroom buf
  refine ⟨r', blks₃, ?_, ?_, ?_, hcontent⟩
  · unfold recvFunc
    simp only [hget, Stack.putPkt_mgr, Stack.putPkt_self, halloc, ok_bind,
      resetAccess_eq hf.cursor.holds.list, hwrite, hput]
    rfl
  · rw [hnetif]
    rfl
  · rw [hworld, ← hB]
    simpa [Stack.putPkt] using hholds

/-- A buffer whose first block holds the header, and what `link_in` makes
of it. -/
theorem linkIn_of_front {first : PktBlock} {rest : List PktBlock} {m' : PktManager}
    {b' : PktBuffer} {e : NetErr}
    (hcont : setContHeader m b etherHdrSize = .ok (e, m', b'))
    (hlist : b'.blkList = (first :: rest).map some) (hfirst : first.Ok m.blkSize)
    (hfront : etherHdrSize ≤ first.size) (hsize : isPktOk b'.capacity = .ok) :
    EtherNet.linkIn m b =
      .ok (.ok, some (netToHost (ofMem (slice b'.bytes protocolOffset 2))), m', b') := by
  have hfits := hfirst.fits
  have hwin := hfirst.window_length
  have hhdr : etherHdrSize = 14 := rfl
  have hoff : protocolOffset = 12 := rfl
  have hload : loadData b' protocolOffset 2 = .ok (slice b'.bytes protocolOffset 2) := by
    have hbytes : slice b'.bytes protocolOffset 2 =
        slice first.payload (first.data + protocolOffset) 2 := by
      rw [bytes_of_list hlist, content_cons, slice_append_left (by omega), PktBlock.window]
      simp only [slice, List.drop_take, List.drop_drop, List.take_take]
      rw [Nat.min_eq_left (by omega)]
    rw [hbytes]
    rw [List.map_cons] at hlist
    unfold loadData getData
    simp only [hlist, ok_bind, load]
    rw [if_pos (by rw [hfirst.payload]; omega)]
  unfold EtherNet.linkIn
  simp only [hcont, ok_bind, hsize, hload]
  rfl

/-- `link_in` accepts every well-formed packet of a frame's length, gathers
its header in the first block and leaves its bytes alone. -/
theorem linkIn_ok (hb : b.Holds m.blkSize blks) (hB : etherHdrSize ≤ m.blkSize)
    (hmin : etherHdrSize ≤ b.capacity) (hmax : b.capacity ≤ etherHdrSize + etherMtu) :
    ∃ m' b' first rest,
      EtherNet.linkIn m b =
        .ok (.ok, some (netToHost (ofMem (slice b.bytes protocolOffset 2))), m', b') ∧
      b'.blkList = (first :: rest).map some ∧ etherHdrSize ≤ first.size ∧
      first.window.take etherHdrSize = b.bytes.take etherHdrSize ∧ b'.bytes = b.bytes := by
  have hsize : isPktOk b.capacity = .ok := by
    rw [isPktOk, if_neg (Nat.not_lt.mpr hmax), if_neg (Nat.not_lt.mpr hmin)]
  have hhdr : etherHdrSize = 14 := rfl
  cases hblks : blks with
  | nil =>
    have hcap := hb.capacity
    rw [hblks, sizes_nil] at hcap
    omega
  | cons first rest =>
    rw [hblks] at hb
    have hfirst := hb.ok first List.mem_cons_self
    have hrest : ∀ blk ∈ rest, blk.Ok m.blkSize := fun blk h => hb.ok blk (List.mem_cons_of_mem _ h)
    have hcap := hb.capacity
    rw [sizes_cons] at hcap
    by_cases henough : etherHdrSize ≤ first.size
    · have hwin := hfirst.window_length
      refine ⟨m, b, first, rest, ?_, hb.list, henough, ?_, rfl⟩
      · exact linkIn_of_front (setContHeader_enough hb.list hmin hB henough) hb.list hfirst
          henough hsize
      · rw [hb.bytes, content_cons, List.take_append_of_le_length (by omega)]
    · have hshort : first.size < etherHdrSize := Nat.lt_of_not_le henough
      have hgather := gather_holds hb hmin hB hshort
      have hok := gathered_ok hfirst hrest hshort hB (by omega)
      have hbytes := hgather.bytes
      rw [gathered_content hfirst hrest hshort hB (by omega), ← hb.bytes] at hbytes
      have hin := linkIn_of_front (setContHeader_gather hb hmin hB hshort) hgather.list hok
        (Nat.le_refl _) hsize
      rw [hbytes] at hin
      refine ⟨_, _, _, _, hin, hgather.list, Nat.le_refl _, ?_, hbytes⟩
      have hwin : (gathered etherHdrSize first rest).window.length = etherHdrSize :=
        hok.window_length
      rw [← hbytes, hgather.bytes, content_cons, List.take_append_of_le_length (by omega)]

end Fresh

/-! ## From end to end -/

/-- `send_func` will copy out `frame` when it comes to the packet, whatever
else has happened in between to other packets and queues. -/
def SentAs (s : Stack) (buf : BufId) (frame : List UInt8) : Prop :=
  ∀ (t : Stack) queue, t.netif.outQ.items = buf :: queue → t.bufs buf = s.bufs buf →
    ∃ t', sendFunc t = .ok (some frame, t')

/-- `recv_func`, given `frame` and enough buffers, queues a packet that
`link_in`, when it comes to it, accepts: the protocol decoded, the header
in the first block, the bytes those of the frame. -/
def ReceivedAs (r : Stack) (frame : List UInt8) (protocol : UInt16) : Prop :=
  ∀ buf pool, r.mgr.pktBuf.items = buf :: pool → (r.bufs buf).blkList = [] →
    frame.length ≤ r.mgr.freeBytes → r.netif.inQ.items.length < r.netif.inQ.cap →
    ∃ r', recvFunc r frame = .ok r' ∧ r'.netif.inQ.items = r.netif.inQ.items ++ [buf] ∧
      ∀ (t : Stack) queue, t.mgr.blkSize = r.mgr.blkSize → t.netif.inQ.items = buf :: queue →
        t.bufs buf = r'.bufs buf →
        ∃ t' m b first rest, t.getBufFromInQueue = .ok (some buf, t') ∧
          EtherNet.linkIn t'.mgr (t'.bufs buf) = .ok (.ok, some protocol, m, b) ∧
          b.blkList = (first :: rest).map some ∧ etherHdrSize ≤ first.size ∧
          first.window.take etherHdrSize = frame.take etherHdrSize ∧ b.bytes = frame

theorem receivedAs_frame {r : Stack} (hm : r.mgr.Sound) (hB : etherHdrSize ≤ r.mgr.blkSize)
    (dest src : HwAddr) (protocol : UInt16) {payload : List UInt8}
    (hlen : payload.length ≤ etherMtu) :
    ReceivedAs r (etherFrame dest src protocol payload) protocol := by
  obtain ⟨frame, hframe⟩ : ∃ frame, frame = etherFrame dest src protocol payload := ⟨_, rfl⟩
  have hsize : frame.length = etherHdrSize + max etherDataMin payload.length := by
    rw [hframe, etherFrame_length]
  have hhdr : etherHdrSize = 14 := rfl
  have hmtu : etherMtu = 1500 := rfl
  have hmin : etherDataMin = 46 := rfl
  rw [← hframe]
  intro buf pool hpool hlist hfree hroom
  obtain ⟨r', blks, hrecv, hqueue, hholds, hcontent⟩ :=
    recvFunc_ok hm hpool hlist (by omega) (by omega) hfree hroom
  refine ⟨r', hrecv, hqueue, ?_⟩
  intro t queue hblk hq hsame
  have hbytes : ((r'.bufs buf).rewound blks).bytes = frame := by
    rw [hholds.rewound.bytes, hcontent]
  have hcap : ((r'.bufs buf).rewound blks).capacity = frame.length := by
    rw [← hholds.rewound.bytes_length, hbytes]
  have hget : t.getBufFromInQueue = .ok (some buf,
      { t.putPkt t.mgr buf ((r'.bufs buf).rewound blks) with
        netif := { t.netif with inQ := { t.netif.inQ with items := queue } } }) := by
    unfold Stack.getBufFromInQueue
    simp only [Fifo.pop, hq, hsame, resetAccess_eq hholds.list, ok_bind]
  have hb : ((r'.bufs buf).rewound blks).Holds t.mgr.blkSize blks := by
    rw [hblk]
    exact hholds.rewound
  obtain ⟨m, b, first, rest, hin, hlist', hfront, htake, hkept⟩ :=
    linkIn_ok hb (by rw [hblk]; exact hB) (by omega) (by omega)
  rw [hbytes] at hin htake hkept
  -- the two bytes of the protocol
  have hprotocol : netToHost (ofMem (slice frame protocolOffset 2)) = protocol := by
    have hfront' : slice frame protocolOffset 2 =
        slice (etherHdr dest src protocol) protocolOffset 2 := by
      rw [hframe, etherFrame, ← etherHdr_eq, List.append_assoc, slice_append_left]
      rw [etherHdr_length]
      decide
    rw [hfront', etherHdr_protocol]
  rw [hprotocol] at hin
  refine ⟨_, m, b, first, rest, hget, ?_, hlist', hfront, htake, hkept⟩
  simpa [Stack.putPkt] using hin

/-- **Round trip.** If `ether_raw_out` accepts a placed payload for another
station, the out-queue gets the packet, `send_func` copies out the frame,
and any receiver with blocks of at least 14 bytes gets exactly that frame
and its protocol. -/
theorem send_receive {s s' : Stack} {buf : BufId} {m : PktManager} {b : PktBuffer}
    {payload : List UInt8} {protocol : UInt16} {dest : HwAddr} (hm : s.mgr.Sound)
    (hlist : (s.bufs buf).blkList = []) (hcap : (s.bufs buf).capacity = 0)
    (hlen : payload.length ≤ etherMtu) (hdest : dest ≠ s.netif.hwaddr)
    (hplace : placePayload s.mgr (s.bufs buf) payload = .ok (true, m, b))
    (hsent : EtherNet.etherRawOut (s.putPkt m buf b) protocol dest buf = .ok (.ok, s')) :
    s'.netif.outQ.items = s.netif.outQ.items ++ [buf] ∧
      SentAs s' buf (etherFrame dest s.netif.hwaddr protocol payload) ∧
      (etherFrame dest s.netif.hwaddr protocol payload).length ≤ etherHdrSize + etherMtu ∧
      (∀ r : Stack, r.mgr.Sound → etherHdrSize ≤ r.mgr.blkSize →
        ReceivedAs r (etherFrame dest s.netif.hwaddr protocol payload) protocol) ∧
      (etherFrame dest s.netif.hwaddr protocol payload).drop etherHdrSize =
        payload ++ List.replicate (etherDataMin - payload.length) 0 := by
  have hhdr : etherHdrSize = 14 := rfl
  have hmtu : etherMtu = 1500 := rfl
  have hmin : etherDataMin = 46 := rfl
  obtain ⟨blks, hb, hcontent, hplaced, hm₁, hB₁⟩ :=
    placePayload_ok hm hlist hcap (by omega) hplace
  rw [← hB₁] at hb hplaced
  have hcapacity : b.capacity = payload.length := by
    rw [← hb.bytes_length, hb.bytes, hcontent]
  have hexact := padExact_of_ends hm₁ hb hplaced
  have hs₁ : (s.putPkt m buf b).bufs buf = b := Stack.putPkt_self ..
  have hb₁ : ((s.putPkt m buf b).bufs buf).Holds (s.putPkt m buf b).mgr.blkSize blks := by
    rw [hs₁]
    exact hb
  -- a call that succeeded had the blocks and the room
  have hgoes : FrameFits (s.putPkt m buf b).mgr ((s.putPkt m buf b).bufs buf) ∧
      QueueRoom (s.putPkt m buf b).netif dest := by
    by_contra hnot
    obtain ⟨e, m', b', herr, hisErr, -⟩ := etherRawOut_err hm₁ hb₁ protocol hnot
    rw [hsent] at herr
    obtain ⟨rfl, -⟩ : NetErr.ok = e ∧ _ := by simpa using herr
    cases hisErr
  obtain ⟨s'', heq, hframed, hqueued⟩ := etherRawOut_ok hm₁ hb₁ hgoes.1 protocol hgoes.2
  rw [hsent] at heq
  obtain rfl : s' = s'' := by simpa using heq
  rw [hs₁] at hframed
  obtain ⟨⟨blks', hholds⟩, hbytes⟩ := placed_frame hb hexact (by omega) hframed
  rw [hcontent] at hbytes
  have hframeLen := etherFrame_length dest s.netif.hwaddr protocol payload
  refine ⟨?_, ?_, by omega, ?_, ?_⟩
  · unfold Queued at hqueued
    rw [if_neg (show (s.putPkt m buf b).netif.hwaddr ≠ dest from hdest.symm)] at hqueued
    rw [hqueued]
    rfl
  · intro t queue hq hsame
    have hcap' : (s'.bufs buf).capacity = etherHdrSize + max etherDataMin payload.length := by
      rw [← hholds.bytes_length, hbytes]
      exact hframeLen
    obtain ⟨t', hsend⟩ := sendFunc_ok (B := m.blkSize) hq (by rw [hsame]; exact hholds)
      (by rw [hsame]; omega) (by rw [hsame]; omega)
    rw [← hholds.bytes, hbytes] at hsend
    exact ⟨t', hsend⟩
  · intro r hr hBr
    exact receivedAs_frame hr hBr dest s.netif.hwaddr protocol hlen
  · rw [etherFrame, ← etherHdr_eq, List.append_assoc, ← etherHdr_length dest s.netif.hwaddr protocol,
      List.drop_left]

/-- Six blocks of 16 bytes. -/
def sixteens : List PktBlock := (List.range 6).map fun a => ⟨a, 0, 0, List.replicate 16 9⟩

/-- A sender with an empty packet. -/
def sender : Stack where
  mgr := { blkSize := 16, pktBlk := ⟨6, sixteens.map some⟩, pktBuf := ⟨2, []⟩ }
  bufs _ := PktBuffer.new
  netif := quietEther 2
  memBlock := ⟨2, [0, 1]⟩
  msgQueue := ⟨2, []⟩

/-- The rest of a result, given its first part. -/
theorem exists_of_map_fst {α β : Type} {x : Except Fault (α × β)} {a : α}
    (h : x.map Prod.fst = .ok a) : ∃ b, x = .ok (a, b) := by
  cases x with
  | error e => cases h
  | ok r =>
    obtain ⟨a', b⟩ := r
    obtain rfl : a' = a := by simpa [Except.map] using h
    exact ⟨b, rfl⟩

theorem send_receive_three_bytes :
    ∃ m b s', placePayload sender.mgr (sender.bufs 0) [1, 2, 3] = .ok (true, m, b) ∧
      EtherNet.etherRawOut (sender.putPkt m 0 b) protocolIPv4 etherBroadcastAddr 0 =
        .ok (.ok, s') ∧
      s'.netif.outQ.items = [0] ∧
      SentAs s' 0 (etherFrame etherBroadcastAddr sender.netif.hwaddr protocolIPv4 [1, 2, 3]) ∧
      (∀ r : Stack, r.mgr.Sound → etherHdrSize ≤ r.mgr.blkSize →
        ReceivedAs r (etherFrame etherBroadcastAddr sender.netif.hwaddr protocolIPv4 [1, 2, 3])
          protocolIPv4) ∧
      (etherFrame etherBroadcastAddr sender.netif.hwaddr protocolIPv4 [1, 2, 3]).drop etherHdrSize =
        [1, 2, 3] ++ List.replicate 43 0 := by
  have hm : sender.mgr.Sound := ⟨by decide, by decide, ⟨sixteens, rfl, by decide⟩, by decide⟩
  obtain ⟨⟨m, b⟩, hplace⟩ : ∃ r, placePayload sender.mgr (sender.bufs 0) [1, 2, 3] = .ok (true, r) :=
    exists_of_map_fst (by decide)
  have hok : (do
      let (_, m, b) ← placePayload sender.mgr (sender.bufs 0) [1, 2, 3]
      (EtherNet.etherRawOut (sender.putPkt m 0 b) protocolIPv4 etherBroadcastAddr 0).map
        Prod.fst) = .ok .ok := by decide +kernel
  rw [hplace] at hok
  obtain ⟨s', hsent⟩ := exists_of_map_fst hok
  obtain ⟨hqueue, hsentAs, -, hreceived, hpayload⟩ :=
    send_receive hm rfl rfl (by decide) (by decide) hplace hsent
  exact ⟨m, b, s', hplace, hsent, hqueue, hsentAs, hreceived, hpayload⟩

end TinyTcp.Net
