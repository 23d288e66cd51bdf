/-
TinyTcp.Net.ArpRequest — the frame `make_arp_request` sends, byte for byte,
and where its blocks are when it sends none.

`Packed` is a packet in the making: its bytes, and the blocks that it and
the free list have between them. With blocks of at least 42 bytes the
request lies at the end of one block, the padding in a second one, and the
header goes in front of the request in the first one. So two free blocks
are enough (`makeArpRequest_exact`), and whatever is missing, a buffer, a
block or a place in the queue, the call gives back all it took.
-/
import TinyTcp.Net.RoundTrip

namespace TinyTcp.Net

open TinyTcp.Lib TinyTcp.Pkt PktBuffer

/-! ## What is expected -/

/-- The frame of a request for `target`: broadcast address, sender, protocol ARP; then
Ethernet, IPv4, the lengths of their addresses, request, the sender's two addresses,
nothing, the target, and zeros up to the least length of a payload. -/
def arpFrame (hwaddr : HwAddr) (ipaddr target : IpAddr) : List UInt8 :=
  List.replicate 6 0xFF ++ hwaddr.val ++ [0x08, 0x06] ++
    [0x00, 0x01] ++ [0x08, 0x00] ++ [0x06, 0x04] ++ [0x00, 0x01] ++
    hwaddr.val ++ ipaddr.val ++ List.replicate 6 0x00 ++ target.val ++ List.replicate 18 0x00

theorem arpFrame_length (hwaddr : HwAddr) (ipaddr target : IpAddr) :
    (arpFrame hwaddr ipaddr target).length = 60 := by
  simp [arpFrame, hwaddr.property, ipaddr.property, target.property, etherHwaSize, ipv4AddrSize]

/-- An interface and pools a request can be made with. -/
structure ArpReady (s : Stack) : Prop where
  mgr : s.mgr.Sound
  blkSize : etherHdrSize + arpPktSize ≤ s.mgr.blkSize
  lists : ∀ x ∈ s.mgr.pktBuf.items, (s.bufs x).blkList = []
  room : s.mgr.pktBuf.items.length ≤ s.mgr.pktBuf.cap
  hwaddr : s.netif.hwaddr ≠ etherBroadcastAddr

/-- One buffer of the pool is at the end of the out-queue, and it holds the frame. -/
def ArpSent (s : Stack) (target : IpAddr) (s' : Stack) : Prop :=
  ∃ x, s.mgr.pktBuf.items = x :: s'.mgr.pktBuf.items ∧
    s'.netif = { s.netif with
      outQ := { s.netif.outQ with items := s.netif.outQ.items ++ [x] } } ∧
    (s'.bufs x).bytes = arpFrame s.netif.hwaddr s.netif.ipaddr target ∧
    (∃ blks, (s'.bufs x).Holds s.mgr.blkSize blks) ∧
    (addrs s'.mgr.pktBlk.items.reduceOption ++ addrs (s'.bufs x).blkList.reduceOption).Perm
      (addrs s.mgr.pktBlk.items.reduceOption)

/-- The pools have what they had, and no null block; the queues have not changed. -/
def GivenBack (s s' : Stack) : Prop :=
  s'.mgr.pktBuf.items.Perm s.mgr.pktBuf.items ∧ none ∉ s'.mgr.pktBlk.items ∧
    (addrs s'.mgr.pktBlk.items.reduceOption).Perm (addrs s.mgr.pktBlk.items.reduceOption) ∧
    s'.netif = s.netif

/-! ## A packet in the making -/

/-- A packet whose holder has the only reference; it and the free list have the
blocks of `total` between them. -/
structure Packed (B : Nat) (total : List Nat) (free : List PktBlock) (b : PktBuffer)
    (blks : List PktBlock) (bytes : List UInt8) : Prop where
  payload : ∀ blk ∈ free, blk.payload.length = B
  holds : b.Holds B blks
  content : content blks = bytes
  ref : b.ref = 1
  addrs : (addrs free ++ addrs blks).Perm total

section Packet

variable {m : PktManager} (self : BufId) {b : PktBuffer} {free rest : List PktBlock}
variable {blk : PktBlock} {total : List Nat} {bytes : List UInt8}

/-- Writing over the first bytes. -/
theorem Packed.store {B : Nat} (hp : Packed B total free b (blk :: rest) bytes) {xs : List UInt8}
    (hn : xs.length ≤ blk.size) :
    ∃ b' blk' rest', storeData b xs = .ok b' ∧
      Packed B total free b' (blk' :: rest') (splice bytes 0 xs) ∧
      layout (blk' :: rest') = layout (blk :: rest) ∧ b'.capacity = b.capacity := by
  obtain ⟨blks', hstore, hlayout, hok, hcontent⟩ := storeData_ok hp.holds.list hp.holds.ok hn
  obtain ⟨blk', rest', rfl⟩ : ∃ blk' rest', blks' = blk' :: rest' := by
    cases blks' with
    | nil => cases hlayout
    | cons blk' rest' => exact ⟨blk', rest', rfl⟩
  have hsizes := sizes_of_layout hlayout
  refine ⟨_, blk', rest', hstore, ⟨hp.payload, ⟨rfl, hok, ?_, ?_⟩, ?_, hp.ref, ?_⟩, hlayout, rfl⟩
  · rw [hsizes]
    exact hp.holds.capacity
  · rw [hsizes]
    exact hp.holds.lt
  · rw [hcontent, hp.content]
  · rw [addrs_of_layout hlayout]
    exact hp.addrs

/-- The cursor goes behind the first bytes, and zeros are written over the others. -/
theorem Packed.zero_tail {B : Nat} {xs ys : List UInt8}
    (hp : Packed B total free b (blk :: rest) (xs ++ ys)) (hys : ys ≠ [])
    (hlt : b.capacity < 2 ^ 31) :
    ∃ b₁ b' blk' rest', (b.rewound (blk :: rest)).seek xs.length = .ok (.ok, b₁) ∧
      b₁.fill 0x00 ys.length = .ok (.ok, b') ∧
      Packed B total free b' (blk' :: rest') (xs ++ List.replicate ys.length 0) ∧
      layout (blk' :: rest') = layout (blk :: rest) ∧ b'.capacity = b.capacity := by
  have hpos : 0 < ys.length := List.length_pos_iff.mpr hys
  have hsum : b.capacity = xs.length + ys.length := by
    rw [hp.holds.capacity, ← content_length hp.holds.ok, hp.content, List.length_append]
  have hsizes : sizes (blk :: rest) = xs.length + ys.length := by
    rw [← hp.holds.capacity, hsum]
  have hcursor := hp.holds.cursor_rewound (by omega)
  obtain ⟨b₁, hseek, hreach₁, href₁, hcap₁⟩ := seek_forward hcursor.reach (Nat.zero_le xs.length)
    (show xs.length ≤ b.capacity by omega) (by omega) (by omega)
  have hcap₁' : b₁.capacity = xs.length + ys.length := hcap₁.trans hsum
  have hremain : ys.length ≤ b₁.totalBlkRemain := by
    have hsub : sub32 (xs.length + ys.length) xs.length = xs.length + ys.length - xs.length :=
      wrapSub_eq (by omega) (by omega)
    rw [totalBlkRemain, hcap₁', hreach₁.pos, hsub]
    omega
  obtain ⟨b', blks', hfill, hreach', hlayout, hcontent, href', hcap'⟩ :=
    fill_reach hreach₁ 0x00 hpos hremain (by omega) (by omega)
  obtain ⟨blk', rest', rfl⟩ : ∃ blk' rest', blks' = blk' :: rest' := by
    cases blks' with
    | nil => cases hlayout
    | cons blk' rest' => exact ⟨blk', rest', rfl⟩
  have hsizes' := sizes_of_layout hlayout
  have hcapacity : b'.capacity = b.capacity := hcap'.trans hcap₁
  refine ⟨b₁, b', blk', rest', hseek, hfill,
    ⟨hp.payload, ⟨hreach'.list, hreach'.ok, ?_, ?_⟩, ?_, ?_, ?_⟩, hlayout, hcapacity⟩
  · rw [hcapacity, hsizes', hsizes, hsum]
  · omega
  · have hsplice := splice_append_right xs ys (List.replicate ys.length (0x00 : UInt8)) 0
    rw [Nat.add_zero] at hsplice
    rw [hcontent, hp.content, hsplice, splice_all List.length_replicate]
  · rw [href', href₁]
    exact hp.ref
  · rw [addrs_of_layout hlayout]
    exact hp.addrs

/-- A block that ends with its payload leaves nothing to take in. -/
theorem stretched_full {B : Nat} (hb : b.Holds B [blk]) (hend : blk.data + blk.size = B) :
    b.stretched B [] blk = b := by
  have hlt := hb.lt
  rw [sizes_cons, sizes_nil] at hlt
  have hzero : slack B blk = 0 := by
    rw [slack]
    omega
  have hsize : add32 blk.size 0 = blk.size := wrapAdd_eq (by omega)
  have hcap : add32 b.capacity 0 = b.capacity := wrapAdd_eq hb.capacity_lt
  rw [stretched, hzero, hsize, hcap, List.nil_append, ← hb.list]

/-! ## The request -/

/-- The 28 bytes of the request come at the end of one block. -/
theorem alloc_request (hfree : ∀ blk ∈ free, blk.payload.length = m.blkSize)
    (hB : arpPktSize ≤ m.blkSize) (hne : free ≠ []) (hlist : b.blkList = [])
    (hcap : b.capacity = 0) :
    ∃ b' blk rest, alloc (m.withFree free) b arpPktSize true false =
        .ok (true, m.withFree rest, b') ∧
      Packed m.blkSize (addrs free) rest b' [blk] blk.window ∧ blk.size = arpPktSize ∧
      blk.data + blk.size = m.blkSize ∧ rest.length + 1 = free.length := by
  have harp : arpPktSize = 28 := rfl
  have hpool : (m.withFree free).Pool free := PktManager.pool_withFree hfree
  have hb : b.Holds (m.withFree free).blkSize [] := ⟨hlist, by simp, hcap, by decide⟩
  have hone : 1 ≤ free.length := List.length_pos_iff.mpr hne
  have hn : arpPktSize ≤ free.length * (m.withFree free).blkSize :=
    Nat.le_trans hB (Nat.le_mul_of_pos_left _ hone)
  obtain ⟨new, rest, hcarved, heq⟩ := alloc_ok hpool
    (show 1 ≤ (m.withFree free).blkSize by rw [PktManager.withFree_blkSize]; omega)
    hb.list hn true false
  have hr := alloc_reshaped hpool hb (by omega) hcarved false
  obtain ⟨blk, rfl⟩ : ∃ blk, new = [blk] := by
    have hsizes := hcarved.sizes
    have hfew := hcarved.few
    rw [PktManager.withFree_blkSize] at hfew
    rcases new with _ | ⟨blk, _ | ⟨blk', more⟩⟩
    · cases hsizes
    · exact ⟨blk, rfl⟩
    · have hmul : (blk :: blk' :: more).length * m.blkSize =
          more.length * m.blkSize + m.blkSize + m.blkSize := by
        rw [List.length_cons, List.length_cons, Nat.succ_mul, Nat.succ_mul]
      omega
  have hsize : blk.size = arpPktSize := by
    have hsizes := hcarved.sizes
    rwa [sizes_cons, sizes_nil, Nat.add_zero] at hsizes
  have hlen := hcarved.length
  have hplace := hcarved.place blk List.mem_cons_self
  rw [if_pos rfl] at hplace
  refine ⟨_, blk, rest, heq, ⟨hr.payload, hr.holds, ?_, rfl, ?_⟩, hsize, hplace, ?_⟩
  · rw [content_cons, content_nil, List.append_nil]
  · have haddrs := hr.addrs
    rwa [addrs_nil, List.append_nil] at haddrs
  · rw [List.length_singleton] at hlen
    omega

/-- There is no slack behind the request, so the 18 missing bytes are allocated. -/
theorem resize_request (hb : b.Holds m.blkSize [blk]) (hsize : blk.size = arpPktSize)
    (hend : blk.data + blk.size = m.blkSize) (hlt : m.blkSize < 2 ^ 32) {ok : Bool}
    {m' : PktManager} {b' : PktBuffer} (halloc : alloc m b 18 false false = .ok (ok, m', b')) :
    b.capacity = arpPktSize ∧
      resize m self b etherDataMin = .ok (if ok then .ok else .mem, m', b') := by
  have harp : arpPktSize = 28 := rfl
  have hmin : etherDataMin = 46 := rfl
  have hcap : b.capacity = 28 := by
    rw [hb.capacity, sizes_cons, sizes_nil]
    omega
  have hzero : slack m.blkSize blk = 0 := by
    rw [slack]
    omega
  have hneed : sub32 etherDataMin b.capacity = 18 := by
    rw [hcap]
    rfl
  have hstretch := resize_stretch (n := etherDataMin) self
    (show b.blkList = ([] ++ [blk]).map some from hb.list) (hb.ok blk List.mem_cons_self)
    (by omega) (by omega) (by omega) (by omega)
  rw [stretched_full hb hend, hneed, halloc] at hstretch
  refine ⟨hcap, hstretch.trans ?_⟩
  cases ok with
  | true => rfl
  | false => rfl

/-- The padding is 18 zeros in a second block. -/
theorem pad_request (hp : Packed m.blkSize total free b [blk] bytes)
    (hsize : blk.size = arpPktSize) (hend : blk.data + blk.size = m.blkSize)
    (hlt : m.blkSize < 2 ^ 32) (hne : free ≠ []) :
    ∃ b' blk' tail rest, padToMin (m.withFree free) self b = .ok (.ok, m.withFree rest, b') ∧
      Packed m.blkSize total rest b' (blk' :: tail) (bytes ++ List.replicate 18 0) ∧
      blk'.data = blk.data ∧ b'.capacity = etherDataMin := by
  have harp : arpPktSize = 28 := rfl
  have hpool : (m.withFree free).Pool free := PktManager.pool_withFree hp.payload
  have hone : 1 ≤ free.length := List.length_pos_iff.mpr hne
  have hroom : 18 ≤ free.length * m.blkSize :=
    Nat.le_trans (by omega) (Nat.le_mul_of_pos_left m.blkSize hone)
  obtain ⟨new, rest, hcarved, halloc⟩ := alloc_ok (b := b) (n := 18) hpool
    (show 1 ≤ (m.withFree free).blkSize by rw [PktManager.withFree_blkSize]; omega)
    hp.holds.list hroom false false
  obtain ⟨hcap, hresize⟩ := resize_request self (m := m.withFree free) hp.holds hsize hend hlt halloc
  have hr := alloc_reshaped (n := 18) hpool hp.holds (by omega) hcarved false
  have hjoined : joined false new [blk] = blk :: new := rfl
  rw [hjoined] at hr hresize
  have hnew : (content new).length = 18 := by
    rw [content_length hcarved.ok, hcarved.sizes]
  have hgrown : Packed m.blkSize total rest (b.allocated 18 (blk :: new)) (blk :: new)
      (bytes ++ content new) := by
    refine ⟨hr.payload, hr.holds, ?_, rfl, hr.addrs.trans hp.addrs⟩
    rw [content_cons, ← hp.content, content_cons, content_nil, List.append_nil]
  have hcap' : (b.allocated 18 (blk :: new)).capacity = 46 := by
    change add32 b.capacity 18 = 46
    rw [hcap]
    rfl
  have hlen : bytes.length = b.capacity := by
    rw [← hp.content, content_length hp.holds.ok, ← hp.holds.capacity]
  -- the cursor goes behind the request, and the new bytes are overwritten
  obtain ⟨b₁, b', blk', tail, hseek, hfill, hp', hlayout, hkept⟩ := hgrown.zero_tail
    (fun hnil => by rw [hnil] at hnew; cases hnew) (by omega)
  rw [hnew] at hfill hp'
  rw [hlen] at hseek
  refine ⟨b', blk', tail, rest, ?_, hp', ?_, hkept.trans hcap'⟩
  · unfold padToMin
    rw [if_pos (by rw [hcap]; decide), hresize]
    simp only [ok_bind, if_true, resetAccess_eq hr.holds.list, hseek]
    rw [hcap, show etherDataMin - arpPktSize = 18 from rfl, hfill]
    rfl
  · simp only [layout, List.map_cons, List.cons.injEq, Prod.mk.injEq] at hlayout
    exact hlayout.1.2.2

/-- Without a second block the packet is as it was. -/
theorem pad_request_none (hp : Packed m.blkSize total [] b [blk] bytes)
    (hsize : blk.size = arpPktSize) (hend : blk.data + blk.size = m.blkSize)
    (hlt : m.blkSize < 2 ^ 32) :
    padToMin (m.withFree []) self b = .ok (.mem, m.withFree [], b) := by
  have hpool : (m.withFree []).Pool [] := PktManager.pool_withFree (by simp)
  obtain ⟨free', haddrs, -, halloc⟩ := alloc_short (b := b) (n := 18) hpool (Nat.zero_le _)
    hp.holds.capacity_lt (by simp) false false
  obtain rfl : free' = [] := by
    cases free' with
    | nil => rfl
    | cons blk' free' => cases haddrs
  obtain ⟨hcap, hresize⟩ := resize_request self (m := m.withFree []) hp.holds hsize hend hlt halloc
  have hsame : ({ b with ref := 1 } : PktBuffer) = b := by
    rw [← hp.ref]
  unfold padToMin
  rw [if_pos (by rw [hcap]; decide), hresize, hsame]
  rfl

/-- The header goes in front of the request, in the same block. -/
theorem header_request {hdr : List UInt8} (hp : Packed m.blkSize total free b (blk :: rest) bytes)
    (hfront : etherHdrSize ≤ blk.data) (hcap : b.capacity + etherHdrSize < 2 ^ 32)
    (hhdr : hdr.length = etherHdrSize) :
    ∃ b₁ b' blks', allocHeader (m.withFree free) b etherHdrSize true =
        .ok (.ok, m.withFree free, b₁) ∧ storeData b₁ hdr = .ok b' ∧
      Packed m.blkSize total free b' blks' (hdr ++ bytes) := by
  have hpool : (m.withFree free).Pool free := PktManager.pool_withFree hp.payload
  have hr := inPlace_reshaped hpool hp.holds hcap hfront
  have hsizes := hp.holds.capacity
  rw [sizes_cons] at hsizes
  have hsize : add32 blk.size etherHdrSize = blk.size + etherHdrSize := wrapAdd_eq (by omega)
  have halloc := allocHeader_inPlace (m := m.withFree free) hp.holds.list hfront true
  rw [hsize] at hr halloc
  have hgrown : Packed m.blkSize total free { b with
      blkList := ({ blk with data := blk.data - etherHdrSize, size := blk.size + etherHdrSize } ::
        rest).map some
      capacity := add32 b.capacity etherHdrSize }
      ({ blk with data := blk.data - etherHdrSize, size := blk.size + etherHdrSize } :: rest)
      (slice blk.payload (blk.data - etherHdrSize) etherHdrSize ++ bytes) := by
    refine ⟨hp.payload, hr.holds, ?_, hp.ref, hr.addrs.trans hp.addrs⟩
    rw [content_cons, grow_front_window hfront, List.append_assoc, ← hp.content, content_cons]
  have hroom : hdr.length ≤ blk.size + etherHdrSize := by
    rw [hhdr]
    exact Nat.le_add_left _ _
  obtain ⟨b', blk', rest', hstore, hp', -, -⟩ := hgrown.store hroom
  refine ⟨_, b', blk' :: rest', halloc, hstore, ?_⟩
  have hblk : blk.Ok m.blkSize := hp.holds.ok blk List.mem_cons_self
  have hfits := hblk.fits
  have hgap : (slice blk.payload (blk.data - etherHdrSize) etherHdrSize).length = hdr.length := by
    rw [hhdr, length_slice_of_le (by rw [hblk.payload]; omega)]
  rwa [splice_zero, ← hgap, List.drop_left] at hp'

/-- The frame, with a second block for the padding. -/
theorem buildFrame_request (hp : Packed m.blkSize total free b [blk] bytes)
    (hsize : blk.size = arpPktSize) (hend : blk.data + blk.size = m.blkSize)
    (hB : etherHdrSize + arpPktSize ≤ m.blkSize) (hlt : m.blkSize < 2 ^ 32) (hne : free ≠ [])
    (protocol : UInt16) (dest src : HwAddr) :
    ∃ b' blks' rest, buildFrame (m.withFree free) self b protocol dest src =
        .ok (.ok, m.withFree rest, b') ∧
      Packed m.blkSize total rest b' blks'
        (etherHdr dest src protocol ++ (bytes ++ List.replicate 18 0)) := by
  obtain ⟨b₁, blk₁, tail, rest, hpad, hp₁, hdata, hcap⟩ :=
    pad_request self hp hsize hend hlt hne
  obtain ⟨b₂, b', blks', halloc, hstore, hp'⟩ :=
    header_request (m := m) hp₁ (by omega) (by rw [hcap]; decide)
      (etherHdr_length dest src protocol)
  refine ⟨b', blks', rest, ?_, hp'⟩
  unfold buildFrame
  simp only [hpad, ok_bind, halloc, hstore]
  rfl

theorem buildFrame_request_none (hp : Packed m.blkSize total [] b [blk] bytes)
    (hsize : blk.size = arpPktSize) (hend : blk.data + blk.size = m.blkSize)
    (hlt : m.blkSize < 2 ^ 32) (protocol : UInt16) (dest src : HwAddr) :
    buildFrame (m.withFree []) self b protocol dest src = .ok (.mem, m.withFree [], b) := by
  unfold buildFrame
  rw [pad_request_none self hp hsize hend hlt]
  rfl

end Packet

/-! ## The call -/

/-- The manager with another pool of buffers. -/
def withBufs (m : PktManager) (pool : List BufId) : PktManager :=
  { m with pktBuf := { m.pktBuf with items := pool } }

section Call

variable {s : Stack} {x : BufId} {pool : List BufId} {free : List PktBlock}

/-- The only holder gives its packet up: the blocks go behind the free ones,
the buffer behind the others. -/
theorem freeBuf_packed {m : PktManager} {b : PktBuffer} {blks : List PktBlock} {total : List Nat}
    {bytes : List UInt8} (hp : Packed m.blkSize total free b blks bytes)
    (hroom : total.length ≤ m.pktBlk.cap) :
    ((s.putPkt (m.withFree free) x b).freeBuf x).mgr =
      (m.withFree (free ++ blks)).releasePktbuffer x := by
  have hlast : b.ref - 1 = 0 := by
    rw [hp.ref]
    rfl
  have hpool : (m.withFree free).Pool free := PktManager.pool_withFree hp.payload
  have hlen := hp.addrs.length_eq
  simp only [List.length_append, addrs, List.length_map] at hlen
  have hrel := hpool.release
    (show free.length + blks.length ≤ (m.withFree free).pktBlk.cap by
      rw [PktManager.withFree_cap]
      omega)
  have hfree : (PktBuffer.free (m.withFree free) x b).1 =
      ((m.withFree free).releaseAll (blks.map some)).releasePktbuffer x := by
    unfold PktBuffer.free
    simp only [hlast, if_true, hp.holds.list]
  unfold Stack.freeBuf
  rw [Stack.putPkt_mgr, Stack.putPkt_self]
  change (PktBuffer.free (m.withFree free) x b).1 = _
  rw [hfree, hrel]
  rfl

/-- What the call took has been given back. -/
theorem givenBack_of_packed (h : ArpReady s) (hpool : s.mgr.pktBuf.items = x :: pool)
    (hfree : s.mgr.Pool free) {free' blks : List PktBlock} {b : PktBuffer} {bytes : List UInt8}
    (hp : Packed s.mgr.blkSize (addrs free) free' b blks bytes) :
    GivenBack s ((s.putPkt ((withBufs s.mgr pool).withFree free') x b).freeBuf x) := by
  have hlen : (addrs free).length ≤ s.mgr.pktBlk.cap := by
    have hroom := h.mgr.room
    rw [hfree.items, List.length_map] at hroom
    rwa [addrs, List.length_map]
  have hbufs : pool.length < s.mgr.pktBuf.cap := by
    have hroom := h.room
    rw [hpool, List.length_cons] at hroom
    omega
  have hmgr := freeBuf_packed (s := s) (x := x) (m := withBufs s.mgr pool) hp hlen
  have hpush : (withBufs s.mgr pool).pktBuf.push x =
      (true, { s.mgr.pktBuf with items := pool ++ [x] }) :=
    Fifo.push_of_room (show (withBufs s.mgr pool).pktBuf.items.length <
      (withBufs s.mgr pool).pktBuf.cap from hbufs) x
  have hitems : (((withBufs s.mgr pool).withFree (free' ++ blks)).releasePktbuffer x).pktBuf.items =
      pool ++ [x] := congrArg (fun r : Bool × Fifo BufId => r.2.items) hpush
  refine ⟨?_, ?_, ?_, rfl⟩
  · rw [hmgr, hitems, hpool]
    exact List.perm_append_singleton x pool
  · rw [hmgr]
    exact none_not_mem_map (free' ++ blks)
  · rw [hmgr, hfree.items]
    change (addrs ((free' ++ blks).map some).reduceOption).Perm _
    rw [reduceOption_map_some, reduceOption_map_some, addrs_append]
    exact hp.addrs

/-- With a free block there is a request. -/
theorem makeRequest_packed (h : ArpReady s) (hpool : s.mgr.pktBuf.items = x :: pool)
    (hfree : s.mgr.Pool free) (hne : free ≠ []) (target : IpAddr) :
    ∃ b blk rest, EtherNet.makeRequest s target =
        .ok (some x, s.putPkt ((withBufs s.mgr pool).withFree rest) x b) ∧
      Packed s.mgr.blkSize (addrs free) rest b [blk]
        (arpPkt s.netif.hwaddr s.netif.ipaddr target) ∧
      blk.size = arpPktSize ∧ blk.data + blk.size = s.mgr.blkSize ∧
      rest.length + 1 = free.length := by
  have harp : arpPktSize = 28 := rfl
  have hB := h.blkSize
  have hlist := h.lists x (by rw [hpool]; exact List.mem_cons_self)
  have hsame : (withBufs s.mgr pool).withFree free = withBufs s.mgr pool :=
    PktManager.Pool.withFree_self ⟨hfree.items, hfree.payload⟩
  obtain ⟨b₁, blk, rest, halloc, hp, hsize, hend, hlen⟩ :=
    alloc_request (m := withBufs s.mgr pool) (b := (s.bufs x).reset) hfree.payload
      (show arpPktSize ≤ s.mgr.blkSize by omega) hne hlist rfl
  rw [hsame] at halloc
  have hcap : b₁.capacity = arpPktSize := by
    rw [hp.holds.capacity, sizes_cons, sizes_nil, hsize, Nat.add_zero]
  have hcont := setContHeader_enough (m := (withBufs s.mgr pool).withFree rest) (n := arpPktSize)
    hp.holds.list (by omega) (show arpPktSize ≤ s.mgr.blkSize by omega) (by omega)
  have harpLen := arpPkt_length s.netif.hwaddr s.netif.ipaddr target
  obtain ⟨b₂, blk', rest', hstore, hp₂, hlayout, -⟩ := hp.store (by rw [harpLen, hsize])
  obtain rfl : rest' = [] := by
    have hlen' := congrArg List.length hlayout
    simpa [layout] using hlen'
  have hwindow : blk.window.length = (arpPkt s.netif.hwaddr s.netif.ipaddr target).length := by
    rw [(hp.holds.ok blk List.mem_cons_self).window_length, harpLen, hsize]
  rw [splice_all hwindow.symm] at hp₂
  simp only [layout, List.map_cons, List.map_nil, List.cons.injEq, Prod.mk.injEq, and_true]
    at hlayout
  refine ⟨b₂, blk', rest, ?_, hp₂, hlayout.2.1.trans hsize, ?_, hlen⟩
  · unfold EtherNet.makeRequest
    have hget : s.getPktbuffer = (some x, s.putPkt (withBufs s.mgr pool) x (s.bufs x).reset) :=
      s.getPktbuffer_cons hpool
    simp only [hget, Stack.putPkt_mgr, Stack.putPkt_self, halloc, ok_bind, hcont,
      Stack.putPkt_netif, hstore, Stack.putPkt_putPkt]
    rfl
  · rw [hlayout.2.1, hlayout.2.2]
    exact hend

/-- Without one the buffer goes back. -/
theorem makeRequest_none (h : ArpReady s) (hpool : s.mgr.pktBuf.items = x :: pool)
    (hfree : s.mgr.Pool []) (target : IpAddr) :
    ∃ s', EtherNet.makeRequest s target = .ok (none, s') ∧ GivenBack s s' := by
  have hlist := h.lists x (by rw [hpool]; exact List.mem_cons_self)
  have hfree' : (withBufs s.mgr pool).Pool [] := ⟨hfree.items, hfree.payload⟩
  have hzero : (s.bufs x).reset.capacity = 0 := rfl
  obtain ⟨free', haddrs, -, halloc⟩ := alloc_short (b := (s.bufs x).reset) (n := arpPktSize)
    hfree' (Nat.zero_le _) (by rw [hzero]; decide) (by rw [List.length_nil, Nat.zero_mul]; decide)
    true false
  obtain rfl : free' = [] := by
    cases free' with
    | nil => rfl
    | cons blk free' => cases haddrs
  have hp : Packed s.mgr.blkSize (addrs []) [] { (s.bufs x).reset with ref := 1 } [] [] :=
    ⟨by simp, ⟨hlist, by simp, rfl, by decide⟩, rfl, rfl, List.Perm.refl _⟩
  refine ⟨_, ?_, givenBack_of_packed h hpool hfree hp⟩
  have hget : s.getPktbuffer = (some x, s.putPkt (withBufs s.mgr pool) x (s.bufs x).reset) :=
    s.getPktbuffer_cons hpool
  unfold EtherNet.makeRequest
  simp only [hget, Stack.putPkt_mgr, Stack.putPkt_self, halloc, ok_bind, Stack.putPkt_putPkt]
  rfl

/-- The frame goes to the out-queue, unless that is full. -/
theorem etherRawOut_request (h : ArpReady s) {m : PktManager} {b : PktBuffer} {blk : PktBlock}
    {total : List Nat} {bytes : List UInt8} (hm : m.blkSize = s.mgr.blkSize)
    (hp : Packed m.blkSize total free b [blk] bytes)
    (hsize : blk.size = arpPktSize) (hend : blk.data + blk.size = m.blkSize) (hne : free ≠ []) :
    ∃ b' blks' rest,
      EtherNet.etherRawOut (s.putPkt (m.withFree free) x b) protocolArp etherBroadcastAddr x =
        .ok ((s.putPkt (m.withFree rest) x b').putBufToOutQueue x) ∧
      Packed m.blkSize total rest b' blks'
        (etherHdr etherBroadcastAddr s.netif.hwaddr protocolArp ++
          (bytes ++ List.replicate 18 0)) := by
  have hB := h.blkSize
  obtain ⟨b', blks', rest, hbuild, hp'⟩ :=
    buildFrame_request x hp hsize hend (by omega) (by rw [hm]; exact h.mgr.blkSize_lt) hne
      protocolArp etherBroadcastAddr s.netif.hwaddr
  refine ⟨b', blks', rest, ?_, hp'⟩
  unfold EtherNet.etherRawOut
  simp only [Stack.putPkt_mgr, Stack.putPkt_self, Stack.putPkt_netif, hbuild, ok_bind,
    Stack.putPkt_putPkt, if_neg h.hwaddr]
  rw [if_neg (by decide)]
  by_cases hroom : s.netif.outQ.items.length < s.netif.outQ.cap
  · rw [Stack.putBufToOutQueue_room (s := s.putPkt (m.withFree rest) x b') hroom x]
    rfl
  · rw [Stack.putBufToOutQueue_full (s := s.putPkt (m.withFree rest) x b')
      (Nat.le_of_not_lt hroom) x]
    rfl

/-- Without a block for the padding nothing is sent. -/
theorem etherRawOut_request_none (h : ArpReady s) {m : PktManager} {b : PktBuffer}
    {blk : PktBlock} {total : List Nat} {bytes : List UInt8} (hm : m.blkSize = s.mgr.blkSize)
    (hp : Packed m.blkSize total [] b [blk] bytes) (hsize : blk.size = arpPktSize)
    (hend : blk.data + blk.size = m.blkSize) :
    EtherNet.etherRawOut (s.putPkt (m.withFree []) x b) protocolArp etherBroadcastAddr x =
      .ok (.mem, s.putPkt (m.withFree []) x b) := by
  have hbuild := buildFrame_request_none x hp hsize hend (by rw [hm]; exact h.mgr.blkSize_lt)
    protocolArp etherBroadcastAddr s.netif.hwaddr
  unfold EtherNet.etherRawOut
  simp only [Stack.putPkt_mgr, Stack.putPkt_self, Stack.putPkt_netif, hbuild, ok_bind,
    Stack.putPkt_putPkt]
  rfl

/-- The header, the request and the zeros are the frame. -/
theorem arpFrame_eq (hwaddr : HwAddr) (ipaddr target : IpAddr) :
    etherHdr etherBroadcastAddr hwaddr protocolArp ++
        (arpPkt hwaddr ipaddr target ++ List.replicate 18 0) =
      arpFrame hwaddr ipaddr target := by
  have hprotocol : wire protocolArp = [0x08, 0x06] := by decide
  have hether : wire arpHwEther = [0x00, 0x01] := by decide
  have hip : wire protocolIPv4 = [0x08, 0x00] := by decide
  have hrequest : wire arpRequest = [0x00, 0x01] := by decide
  have hhwLen : etherHwaSize.toUInt8 = 0x06 := by decide
  have hipLen : ipv4AddrSize.toUInt8 = 0x04 := by decide
  have hbroadcast : etherBroadcastAddr.val = List.replicate 6 0xFF := rfl
  have hzeros : List.replicate etherHwaSize (0 : UInt8) = List.replicate 6 0 := rfl
  rw [etherHdr_eq, arpPkt]
  simp only [toMem_hostToNet, hprotocol, hether, hip, hrequest, hhwLen, hipLen, hbroadcast, hzeros,
    arpFrame, List.append_assoc]

/-- **The ARP request.** With two free blocks, a buffer and a place in the
out-queue the frame is there, byte for byte; else the call reports an error
and has given back what it took. -/
theorem makeArpRequest_exact (h : ArpReady s) (target : IpAddr) :
    if 2 ≤ s.mgr.pktBlk.items.length ∧ s.mgr.pktBuf.items ≠ [] ∧
        s.netif.outQ.items.length < s.netif.outQ.cap
    then ∃ s', EtherNet.makeArpRequest s target = .ok (.ok, s') ∧ ArpSent s target s'
    else ∃ e s', EtherNet.makeArpRequest s target = .ok (e, s') ∧ e.isErr = true ∧
      GivenBack s s' := by
  obtain ⟨free, hfree⟩ := h.mgr.pool
  cases hpool : s.mgr.pktBuf.items with
  | nil =>
    rw [if_neg (fun hall => hall.2.1 rfl)]
    refine ⟨.none, s, ?_, rfl, List.Perm.refl _, ?_, List.Perm.refl _, rfl⟩
    · unfold EtherNet.makeArpRequest EtherNet.makeRequest
      rw [s.getPktbuffer_nil hpool]
      rfl
    · rw [hfree.items]
      exact none_not_mem_map free
  | cons x pool =>
    have hcount : s.mgr.pktBlk.items.length = free.length := by
      rw [hfree.items, List.length_map]
    by_cases hne : free = []
    · subst hne
      obtain ⟨s', hmake, hback⟩ := makeRequest_none h hpool hfree target
      rw [if_neg (by rw [hcount, List.length_nil]; omega)]
      refine ⟨.none, s', ?_, rfl, hback⟩
      unfold EtherNet.makeArpRequest
      rw [hmake]
      rfl
    obtain ⟨b, blk, rest, hmake, hp, hsize, hend, hlen⟩ :=
      makeRequest_packed h hpool hfree hne target
    by_cases hrest : rest = []
    · -- one block: no padding
      subst hrest
      have hraw := etherRawOut_request_none (x := x) h (m := withBufs s.mgr pool) rfl hp hsize hend
      rw [if_neg (by rw [hcount, ← hlen, List.length_nil]; omega)]
      refine ⟨.mem, _, ?_, rfl, givenBack_of_packed h hpool hfree hp⟩
      unfold EtherNet.makeArpRequest
      simp only [hmake, ok_bind, hraw]
      rfl
    have hpos : 1 ≤ rest.length := List.length_pos_iff.mpr hrest
    obtain ⟨b', blks', rest', hraw, hp'⟩ :=
      etherRawOut_request (x := x) h (m := withBufs s.mgr pool) rfl hp hsize hend hrest
    by_cases hroom : s.netif.outQ.items.length < s.netif.outQ.cap
    · rw [if_pos ⟨by omega, List.cons_ne_nil _ _, hroom⟩]
      have hput := Stack.putBufToOutQueue_room
        (s := s.putPkt ((withBufs s.mgr pool).withFree rest') x b') hroom x
      rw [hput] at hraw
      have hcall : EtherNet.makeArpRequest s target = .ok (.ok,
          { s.putPkt ((withBufs s.mgr pool).withFree rest') x b' with netif := { s.netif with
            outQ := { s.netif.outQ with items := s.netif.outQ.items ++ [x] } } }) := by
        unfold EtherNet.makeArpRequest
        simp only [hmake, ok_bind, hraw]
        rfl
      refine ⟨_, hcall, x, hpool, rfl, ?_, ⟨blks', ?_⟩, ?_⟩
      · rw [Stack.putPkt_self, hp'.holds.bytes, hp'.content, arpFrame_eq]
      · rw [Stack.putPkt_self]
        exact hp'.holds
      · rw [Stack.putPkt_self, hp'.holds.list, hfree.items]
        change (addrs (rest'.map some).reduceOption ++ _).Perm _
        rw [reduceOption_map_some, reduceOption_map_some, reduceOption_map_some]
        exact hp'.addrs
    · rw [if_neg (fun hall => hroom hall.2.2)]
      have hput := Stack.putBufToOutQueue_full
        (s := s.putPkt ((withBufs s.mgr pool).withFree rest') x b') (Nat.le_of_not_lt hroom) x
      rw [hput] at hraw
      refine ⟨.full, _, ?_, rfl, givenBack_of_packed h hpool hfree hp'⟩
      unfold EtherNet.makeArpRequest
      simp only [hmake, ok_bind, hraw]
      rfl

/-- One buffer, and two blocks full of old bytes. -/
def arpHost : Stack where
  mgr := {
    blkSize := 48
    pktBlk := ⟨2, [some ⟨0, 7, 3, List.replicate 48 9⟩, some ⟨1, 40, 8, List.replicate 48 8⟩]⟩
    pktBuf := ⟨1, [0]⟩ }
  bufs _ := PktBuffer.new
  netif := quietEther 1
  memBlock := ⟨1, [0]⟩
  msgQueue := ⟨1, []⟩

theorem arpHost_ready : ArpReady arpHost where
  mgr := ⟨by decide, by decide,
    ⟨[⟨0, 7, 3, List.replicate 48 9⟩, ⟨1, 40, 8, List.replicate 48 8⟩], rfl, by decide⟩, by decide⟩
  blkSize := by decide
  lists _ _ := rfl
  room := by decide
  hwaddr := by decide

theorem makeArpRequest_exact_two_blocks :
    ∃ s', EtherNet.makeArpRequest arpHost ⟨[10, 0, 0, 2], rfl⟩ = .ok (.ok, s') ∧
      ArpSent arpHost ⟨[10, 0, 0, 2], rfl⟩ s' := by
  have h := makeArpRequest_exact arpHost_ready ⟨[10, 0, 0, 2], rfl⟩
  rwa [if_pos (by decide)] at h

end Call

end TinyTcp.Net
