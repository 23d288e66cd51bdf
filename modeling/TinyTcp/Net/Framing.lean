/-
TinyTcp.Net.Framing — what `ether_raw_out` makes of a packet.

The frame is built in three stages: padding to `ETHER_DATA_MIN`, room for
the header, the header itself. Each stage has one lemma for the case that
there are enough blocks (`PadFits`, `HeaderFits`) and one for the others.
Put together, `buildFrame_ok` says what lies in the buffer afterwards:
header, payload, zeros, and then the bytes of the slack the padding should
not have taken in, which are none exactly if `PadExact`.

`etherRawOut_frames_iff` is the result: the queued bytes are the frame
exactly if the padding is exact or the call fails.
-/
import TinyTcp.Net.Netif
import TinyTcp.Pkt.Keeps

namespace TinyTcp.Net

open TinyTcp.Lib TinyTcp.Pkt PktBuffer

/-! ## The frame and its conditions -/

/-- Destination, source, protocol with its high byte first, payload, and
zeros up to the least length of a payload. -/
def etherFrame (dest src : HwAddr) (protocol : UInt16) (payload : List UInt8) : List UInt8 :=
  dest.val ++ src.val ++ wire protocol ++ payload ++
    List.replicate (etherDataMin - payload.length) 0

theorem etherFrame_length (dest src : HwAddr) (protocol : UInt16) (payload : List UInt8) :
    (etherFrame dest src protocol payload).length =
      etherHdrSize + max etherDataMin payload.length := by
  simp only [etherFrame, wire, List.length_append, List.length_cons, List.length_nil,
    List.length_replicate, dest.property, src.property, etherHwaSize, etherDataMin, etherHdrSize]
  omega

/-- The padding adds the missing bytes and no others: there is nothing to
pad, or the buffer is empty, or the slack behind the last window is not
larger than what is missing. -/
def PadExact (B : Nat) (b : PktBuffer) : Prop :=
  b.capacity = 0 ∨ etherDataMin ≤ b.capacity ∨ b.capacity + b.backSlack B ≤ etherDataMin

/-- How many bytes the padding asks the free list for. -/
def padNeed (B : Nat) (b : PktBuffer) : Nat :=
  if etherDataMin ≤ b.capacity then 0
  else if b.capacity = 0 then etherDataMin
  else if etherDataMin ≤ b.backSlack B then 0
  else sub32 etherDataMin (b.capacity + b.backSlack B)

/-- The free list has the blocks `ether_raw_out` asks for: those of the
padding, and one for the header unless the first block has room for it. -/
def FrameFits (m : PktManager) (b : PktBuffer) : Prop :=
  padNeed m.blkSize b ≤ m.freeBytes ∧
    (etherHdrSize ≤ b.frontSlack ∨
      (etherHdrSize ≤ m.blkSize ∧ padNeed m.blkSize b + m.blkSize ≤ m.freeBytes))

/-- The queue the frame goes to is not full. -/
def QueueRoom (netif : INetIF) (dest : HwAddr) : Prop :=
  if netif.hwaddr = dest then netif.inQ.items.length < netif.inQ.cap
  else netif.outQ.items.length < netif.outQ.cap

instance (B : Nat) (b : PktBuffer) : Decidable (PadExact B b) := by
  unfold PadExact
  infer_instance

instance (m : PktManager) (b : PktBuffer) : Decidable (FrameFits m b) := by
  unfold FrameFits
  infer_instance

instance (netif : INetIF) (dest : HwAddr) : Decidable (QueueRoom netif dest) := by
  unfold QueueRoom
  infer_instance

/-! ## Growing a packet -/

section Grow

variable {m : PktManager} (self : BufId) {b : PktBuffer} {blks : List PktBlock}

/-- What a successful `resize` to more bytes leaves: the old bytes and
`more` behind them. -/
structure Grown (m : PktManager) (b : PktBuffer) (need : Nat) (m' : PktManager) (b' : PktBuffer)
    (blks' : List PktBlock) (more : List UInt8) : Prop where
  list : b'.blkList = blks'.map some
  ok : ∀ blk ∈ blks', blk.Ok m.blkSize
  bytes : content blks' = b.bytes ++ more
  front : b'.frontSlack = b.frontSlack
  sound : m'.Sound
  blkSize : m'.blkSize = m.blkSize
  pktBuf : m'.pktBuf = m.pktBuf
  left : m'.pktBlk.items ≠ [] ↔ need + m.blkSize ≤ m.freeBytes
  ref : b.ref = 1 → b'.ref = 1

/-- The free list after `alloc` is not empty if it could give one block more. -/
theorem carved_left {B n : Nat} {f : Bool} {free new rest : List PktBlock}
    (h : Carved B f n free new rest) : rest ≠ [] ↔ n + B ≤ free.length * B := by
  have hlen := h.length
  have hfew := h.few
  constructor
  · intro hne
    have hpos : 1 ≤ rest.length := List.length_pos_iff.mpr hne
    have hnew : n ≤ new.length * B := by
      rw [← h.sizes]
      exact sizes_le fun blk hblk => (h.ok blk hblk).size_le
    have hmul : (new.length + 1) * B ≤ free.length * B := Nat.mul_le_mul_right B (by omega)
    rw [Nat.succ_mul] at hmul
    omega
  · intro hle hnil
    rw [hnil, List.length_nil, Nat.add_zero] at hlen
    rw [hlen] at hfew
    omega

theorem frontSlack_append (hlist : b.blkList = blks.map some) {b' : PktBuffer}
    {more : List PktBlock} (hlist' : b'.blkList = (blks ++ more).map some)
    (hmore : ∀ blk ∈ more, blk.data = 0) : b'.frontSlack = b.frontSlack := by
  unfold PktBuffer.frontSlack
  rw [hlist, hlist']
  cases blks with
  | cons blk blks => rfl
  | nil =>
    cases more with
    | nil => rfl
    | cons blk more => exact hmore blk List.mem_cons_self

/-- `alloc(n, false, false)` puts `n` bytes behind the others. -/
theorem alloc_grown (hm : m.Sound) (hlist : b.blkList = blks.map some)
    (hok : ∀ blk ∈ blks, blk.Ok m.blkSize) {n : Nat} (hn : n ≤ m.freeBytes) :
    ∃ m' b' new, alloc m b n false false = .ok (true, m', b') ∧
      Grown m b n m' b' (blks ++ new) (content new) ∧ (content new).length = n ∧
      b'.capacity = add32 b.capacity n := by
  obtain ⟨free, hpool⟩ := hm.pool
  have hroom := hm.room
  rw [hpool.items, List.length_map] at hroom
  rw [hpool.freeBytes] at hn
  obtain ⟨new, rest, hcarved, heq⟩ := alloc_ok hpool hm.blkSize_pos hlist hn false false
  have hlen := hcarved.length
  have hpay : ∀ blk ∈ rest, blk.payload.length = m.blkSize :=
    fun blk hblk => hpool.payload blk (hcarved.rest blk hblk)
  have hzero : ∀ blk ∈ new, blk.data = 0 := fun blk hblk => by simpa using hcarved.place blk hblk
  have hl : (b.allocated n (joined false new blks)).blkList = (blks ++ new).map some := rfl
  refine ⟨_, _, new, heq, ⟨hl, ?_, ?_, ?_, ?_, rfl, rfl, ?_, fun _ => rfl⟩, ?_, rfl⟩
  · intro blk hblk
    exact (List.mem_append.mp hblk).elim (hok blk) (hcarved.ok blk)
  · rw [content_append, bytes_of_list hlist]
  · exact frontSlack_append hlist hl hzero
  · exact hm.withFree hpay (by omega)
  · rw [hpool.freeBytes, ← carved_left hcarved]
    simp [PktManager.withFree]
  · rw [content_length hcarved.ok, hcarved.sizes]

/-- No block is taken. -/
theorem left_of_none (hm : m.Sound) : m.pktBlk.items ≠ [] ↔ 0 + m.blkSize ≤ m.freeBytes := by
  have hpos := hm.blkSize_pos
  rw [PktManager.freeBytes, Nat.zero_add]
  constructor
  · intro hne
    exact Nat.le_mul_of_pos_left _ (List.length_pos_iff.mpr hne)
  · intro hle hnil
    rw [hnil, List.length_nil, Nat.zero_mul] at hle
    omega

variable {init : List PktBlock} {tail : PktBlock}

theorem grown_tail_front {b' : PktBuffer} {c : Nat} (hlist : b.blkList = (init ++ [tail]).map some)
    (hlist' : b'.blkList = (init ++ [{ tail with size := tail.size + c }]).map some) :
    b'.frontSlack = b.frontSlack := by
  unfold PktBuffer.frontSlack
  rw [hlist, hlist']
  cases init with
  | nil => rfl
  | cons blk init => rfl

/-- What the padding needs of the result of `resize`. -/
structure Padded (m : PktManager) (b : PktBuffer) (m' : PktManager) (b' : PktBuffer)
    (blks' : List PktBlock) (more : List UInt8) : Prop where
  grown : Grown m b (padNeed m.blkSize b) m' b' blks' more
  enough : etherDataMin ≤ b'.capacity
  lt : b'.capacity < 2 ^ 32
  missing : etherDataMin - b.capacity ≤ more.length
  exact : more.length = etherDataMin - b.capacity ↔ PadExact m.blkSize b
  capacity : PadExact m.blkSize b → b'.capacity = etherDataMin

/-- An empty buffer gets all its bytes from the free list. -/
theorem resize_padded_empty (hm : m.Sound) (hb : b.Holds m.blkSize blks) (hzero : b.capacity = 0)
    (hfit : padNeed m.blkSize b ≤ m.freeBytes) :
    ∃ m' b' blks' more, resize m self b etherDataMin = .ok (.ok, m', b') ∧
      Padded m b m' b' blks' more := by
  have hneed : padNeed m.blkSize b = etherDataMin := by
    rw [padNeed, hzero]
    rfl
  rw [hneed] at hfit
  obtain ⟨m', b', new, halloc, hgrown, hlen, hcap⟩ := alloc_grown hm hb.list hb.ok hfit
  have hcapacity : b'.capacity = etherDataMin := by
    rw [hcap, hzero]
    rfl
  have hne : etherDataMin ≠ b.capacity := by
    rw [hzero]
    decide
  refine ⟨m', b', blks ++ new, content new, ?_, ?_, ?_, ?_, ?_, ?_, fun _ => hcapacity⟩
  · rw [resize_empty self hne hzero, halloc]
    rfl
  · rw [hneed]
    exact hgrown
  · exact hcapacity.ge
  · rw [hcapacity]
    decide
  · rw [hlen, hzero]
    exact Nat.le_refl _
  · rw [hlen, hzero]
    exact iff_of_true rfl (Or.inl hzero)

/-- A slack of at least the new size is taken in for `ETHER_DATA_MIN` more bytes. -/
theorem resize_padded_inPlace (hm : m.Sound) (hb : b.Holds m.blkSize (init ++ [tail]))
    (hzero : b.capacity ≠ 0) (hlt : b.capacity < etherDataMin)
    (hin : etherDataMin ≤ slack m.blkSize tail) :
    ∃ m' b' blks' more, resize m self b etherDataMin = .ok (.ok, m', b') ∧
      Padded m b m' b' blks' more := by
  have hmin : etherDataMin = 46 := rfl
  have hB := hm.blkSize_lt
  have htail : tail.Ok m.blkSize := hb.ok tail (by simp)
  have hfits := htail.fits
  have hslack := (Cursor.backSlack_eq hb hB).1
  have hroom : slack m.blkSize tail = m.blkSize - (tail.data + tail.size) := rfl
  have hneed : padNeed m.blkSize b = 0 := by
    rw [padNeed, if_neg (by omega), if_neg hzero, hslack, if_pos hin]
  have hsize : add32 tail.size etherDataMin = tail.size + etherDataMin := wrapAdd_eq (by omega)
  have hcap : add32 b.capacity etherDataMin = b.capacity + etherDataMin := wrapAdd_eq (by omega)
  have heq := resize_inPlace self hb.list htail (by omega) hzero hlt hin
  rw [hsize, hcap] at heq
  have hmore : (slice tail.payload (tail.data + tail.size) etherDataMin).length =
      etherDataMin := length_slice_of_le (by rw [htail.payload]; omega)
  have hwrong : ¬ PadExact m.blkSize b := by
    unfold PadExact
    rw [hslack]
    omega
  refine ⟨m, _, _, slice tail.payload (tail.data + tail.size) etherDataMin, heq,
    ⟨⟨rfl, grown_tail_ok hb.ok (by omega), ?_, grown_tail_front hb.list rfl, hm, rfl, rfl, ?_, id⟩,
      Nat.le_add_left _ _, ?_, ?_, ?_, fun hexact => absurd hexact hwrong⟩⟩
  · rw [grown_tail_content, hb.bytes]
  · rw [hneed]
    exact left_of_none hm
  · change b.capacity + etherDataMin < 2 ^ 32
    omega
  · omega
  · exact iff_of_false (by omega) hwrong

/-- A smaller slack is taken in, and what the code takes for the rest is
allocated. Where the slack is larger than what is missing the difference
wraps around. -/
theorem resize_padded_stretch (hm : m.Sound) (hb : b.Holds m.blkSize (init ++ [tail]))
    (hzero : b.capacity ≠ 0) (hlt : b.capacity < etherDataMin)
    (hin : slack m.blkSize tail < etherDataMin) (hfit : padNeed m.blkSize b ≤ m.freeBytes) :
    ∃ m' b' blks' more, resize m self b etherDataMin = .ok (.ok, m', b') ∧
      Padded m b m' b' blks' more := by
  have hmin : etherDataMin = 46 := rfl
  have hB := hm.blkSize_lt
  have htail : tail.Ok m.blkSize := hb.ok tail (by simp)
  have hfits := htail.fits
  have hslack := (Cursor.backSlack_eq hb hB).1
  have hroom : slack m.blkSize tail = m.blkSize - (tail.data + tail.size) := rfl
  obtain ⟨need, hneeddef⟩ : ∃ need, need = sub32 etherDataMin (b.capacity + slack m.blkSize tail) :=
    ⟨_, rfl⟩
  have hneed : padNeed m.blkSize b = need := by
    rw [padNeed, if_neg (by omega), if_neg hzero, hslack, if_neg (by omega), hneeddef]
  have hstretched : b.stretched m.blkSize init tail = { b with
      blkList := (init ++ [{ tail with size := tail.size + slack m.blkSize tail }]).map some
      capacity := b.capacity + slack m.blkSize tail } := by
    have hsize : add32 tail.size (slack m.blkSize tail) = tail.size + slack m.blkSize tail :=
      wrapAdd_eq (by omega)
    have hcap : add32 b.capacity (slack m.blkSize tail) = b.capacity + slack m.blkSize tail :=
      wrapAdd_eq (by omega)
    rw [stretched, hsize, hcap]
  -- what is asked for and the slack together are what is missing, or by `2 ^ 32` too much
  have hsum : (b.capacity + slack m.blkSize tail ≤ etherDataMin ∧
      slack m.blkSize tail + need = etherDataMin - b.capacity) ∨
      (etherDataMin < b.capacity + slack m.blkSize tail ∧
        etherDataMin - b.capacity < slack m.blkSize tail + need) := by
    by_cases hle : b.capacity + slack m.blkSize tail ≤ etherDataMin
    · rw [hneeddef, sub32, wrapSub_eq hle (by omega)]
      exact Or.inl ⟨hle, by omega⟩
    · exact Or.inr ⟨Nat.lt_of_not_le hle, by omega⟩
  have heq := resize_stretch self hb.list htail (by omega) hzero hlt hin
  rw [hneed] at hfit
  have hlist : (b.stretched m.blkSize init tail).blkList =
      (init ++ [{ tail with size := tail.size + slack m.blkSize tail }]).map some := by
    rw [hstretched]
  have hcap : (b.stretched m.blkSize init tail).capacity = b.capacity + slack m.blkSize tail := by
    rw [hstretched]
  have hok := grown_tail_ok (c := slack m.blkSize tail) hb.ok (by omega)
  obtain ⟨m', b', new, halloc, hgrown, hlen, hcap'⟩ := alloc_grown hm hlist hok hfit
  have hcapacity : b'.capacity = etherDataMin := by
    rw [hcap', hcap, hneeddef]
    exact wrapAdd_wrapSub (by omega) (by decide)
  rw [hcap, ← hneeddef, halloc] at heq
  have hmore : (slice tail.payload (tail.data + tail.size) (slack m.blkSize tail) ++
      content new).length = slack m.blkSize tail + need := by
    rw [List.length_append, hlen, length_slice_of_le (by rw [htail.payload]; omega)]
  have hbytes : (b.stretched m.blkSize init tail).bytes = b.bytes ++
      slice tail.payload (tail.data + tail.size) (slack m.blkSize tail) := by
    rw [bytes_of_list hlist, grown_tail_content, hb.bytes]
  refine ⟨m', b', _, slice tail.payload (tail.data + tail.size) (slack m.blkSize tail) ++
    content new, heq, ⟨⟨hgrown.list, hgrown.ok, ?_, ?_, hgrown.sound, hgrown.blkSize,
      hgrown.pktBuf, ?_, ?_⟩, hcapacity.ge, ?_, ?_, ?_, fun _ => hcapacity⟩⟩
  · rw [hgrown.bytes, hbytes, List.append_assoc]
  · rw [hgrown.front]
    exact grown_tail_front hb.list hlist
  · rw [hneed]
    exact hgrown.left
  · intro href
    exact hgrown.ref (by rw [hstretched]; exact href)
  · rw [hcapacity]
    decide
  · rw [hmore]
    omega
  · rw [hmore, PadExact, hslack]
    omega

theorem resize_padded (hm : m.Sound) (hb : b.Holds m.blkSize blks)
    (hlt : b.capacity < etherDataMin) (hfit : padNeed m.blkSize b ≤ m.freeBytes) :
    ∃ m' b' blks' more, resize m self b etherDataMin = .ok (.ok, m', b') ∧
      Padded m b m' b' blks' more := by
  by_cases hzero : b.capacity = 0
  · exact resize_padded_empty self hm hb hzero hfit
  · obtain ⟨init, tail, rfl⟩ := hb.exists_last hzero
    by_cases hin : etherDataMin ≤ slack m.blkSize tail
    · exact resize_padded_inPlace self hm hb hzero hlt hin
    · exact resize_padded_stretch self hm hb hzero hlt (Nat.lt_of_not_le hin) hfit

/-- A failing `alloc` changes neither the pool of buffers nor a count of one. -/
theorem alloc_unfit (hm : m.Sound) (hcap : b.capacity < 2 ^ 32) {n : Nat} (hn : m.freeBytes < n)
    (f ins : Bool) :
    ∃ m', alloc m b n f ins = .ok (false, m', { b with ref := 1 }) ∧ m'.pktBuf = m.pktBuf := by
  obtain ⟨free, hpool⟩ := hm.pool
  have hroom := hm.room
  rw [hpool.items, List.length_map] at hroom
  rw [hpool.freeBytes] at hn
  obtain ⟨free', -, -, heq⟩ := alloc_short hpool hroom hcap hn f ins
  exact ⟨_, heq, rfl⟩

theorem resize_unfit (hm : m.Sound) (hb : b.Holds m.blkSize blks)
    (hlt : b.capacity < etherDataMin) (hfit : m.freeBytes < padNeed m.blkSize b) :
    ∃ m' b', resize m self b etherDataMin = .ok (.mem, m', b') ∧ m'.pktBuf = m.pktBuf ∧
      b'.ref = 1 := by
  have hmin : etherDataMin = 46 := rfl
  have hB := hm.blkSize_lt
  rw [padNeed, if_neg (by omega)] at hfit
  by_cases hzero : b.capacity = 0
  · rw [if_pos hzero] at hfit
    obtain ⟨m', halloc, hbuf⟩ := alloc_unfit hm hb.capacity_lt hfit false false
    refine ⟨m', { b with ref := 1 }, ?_, hbuf, rfl⟩
    rw [resize_empty self (by omega) hzero, halloc]
    rfl
  · obtain ⟨init, tail, rfl⟩ := hb.exists_last hzero
    have htail : tail.Ok m.blkSize := hb.ok tail (by simp)
    have hroom : slack m.blkSize tail = m.blkSize - (tail.data + tail.size) := rfl
    have hin : slack m.blkSize tail < etherDataMin := by
      by_contra hge
      rw [if_neg hzero, (Cursor.backSlack_eq hb hB).1, if_pos (Nat.le_of_not_lt hge)] at hfit
      exact Nat.not_lt_zero _ hfit
    rw [if_neg hzero, (Cursor.backSlack_eq hb hB).1, if_neg (Nat.not_le.mpr hin)] at hfit
    have hcap : (b.stretched m.blkSize init tail).capacity = b.capacity + slack m.blkSize tail :=
      wrapAdd_eq (by omega)
    obtain ⟨m', halloc, hbuf⟩ := alloc_unfit (b := b.stretched m.blkSize init tail) hm
      (by omega) hfit false false
    refine ⟨m', { b.stretched m.blkSize init tail with ref := 1 }, ?_, hbuf, rfl⟩
    rw [resize_stretch self hb.list htail (by omega) hzero hlt hin, hcap, halloc]
    rfl

/-! ## Padding -/

theorem frontSlack_of_layout {b' : PktBuffer} {blks' : List PktBlock}
    (hlist : b.blkList = blks.map some) (hlist' : b'.blkList = blks'.map some)
    (hl : layout blks' = layout blks) : b'.frontSlack = b.frontSlack := by
  unfold PktBuffer.frontSlack
  rw [hlist, hlist']
  cases blks with
  | nil =>
    cases blks' with
    | nil => rfl
    | cons blk' blks' => cases hl
  | cons blk blks =>
    cases blks' with
    | nil => cases hl
    | cons blk' blks' =>
      simp only [layout, List.map_cons, List.cons.injEq, Prod.mk.injEq] at hl
      exact hl.1.2.2

/-- The zeros go over the first of the new bytes. -/
theorem splice_zeros (old more : List UInt8) (n : Nat) :
    splice (old ++ more) old.length (List.replicate n 0) =
      old ++ (List.replicate n 0 ++ more.drop n) := by
  have happ := splice_append_right old more (List.replicate n 0) 0
  rw [Nat.add_zero] at happ
  rw [happ, splice_zero, List.length_replicate]

/-- Enough blocks: the payload, the zeros that are missing, and then what
the padding took in besides, which is nothing exactly if it is exact. -/
theorem padToMin_ok (hm : m.Sound) (hb : b.Holds m.blkSize blks)
    (hfit : padNeed m.blkSize b ≤ m.freeBytes) :
    ∃ m' b' blks' rest, padToMin m self b = .ok (.ok, m', b') ∧
      Grown m b (padNeed m.blkSize b) m' b' blks'
        (List.replicate (etherDataMin - b.bytes.length) 0 ++ rest) ∧
      (rest = [] ↔ PadExact m.blkSize b) ∧
      (PadExact m.blkSize b → b'.capacity = max etherDataMin b.capacity) := by
  have hlen : b.bytes.length = b.capacity := hb.bytes_length
  by_cases hlt : b.capacity < etherDataMin
  · obtain ⟨m', b₁, blks₁, more, hresize, hp⟩ := resize_padded self hm hb hlt hfit
    have hg := hp.grown
    have hB := hm.blkSize_lt
    have hmin : etherDataMin = 46 := rfl
    have henough := hp.enough
    have hcaplt := hp.lt
    have hmissing := hp.missing
    have hsizes : sizes blks₁ = b.capacity + more.length := by
      rw [← content_length hg.ok, hg.bytes, List.length_append, hlen]
    -- the cursor goes to the end of the payload and fills up from there
    have hreach : (b₁.rewound blks₁).Reach m.blkSize blks₁ 0 := by
      refine ⟨hg.list, hg.ok, ?_, rfl, rewound_at hg.ok b₁⟩
      intro blk hblk
      exact Nat.lt_of_le_of_lt (hg.ok blk hblk).size_le hB
    have hcap₁ : (b₁.rewound blks₁).capacity = b₁.capacity := rfl
    obtain ⟨b₂, hseek, hreach₂, href₂, hcap₂⟩ :=
      seek_forward hreach (Nat.zero_le b.capacity) (by omega) (by omega) (by omega)
    have hremain : etherDataMin - b.capacity ≤ b₂.totalBlkRemain := by
      rw [totalBlkRemain, hcap₂, hcap₁, hreach₂.pos, sub32, wrapSub_eq (by omega) (by omega)]
      omega
    obtain ⟨b₃, blks₃, hfill, hreach₃, hlayout, hcontent, href₃, hcap₃⟩ :=
      fill_reach hreach₂ 0x00 (by omega) hremain (by omega) (by omega)
    have hall : b₃.capacity = b₁.capacity := by rw [hcap₃, hcap₂, hcap₁]
    rw [hg.bytes, ← hlen, splice_zeros] at hcontent
    refine ⟨m', b₃, blks₃, more.drop (etherDataMin - b.bytes.length), ?_,
      ⟨hreach₃.list, hreach₃.ok, hcontent, ?_, hg.sound, hg.blkSize, hg.pktBuf, hg.left, ?_⟩,
      ?_, ?_⟩
    · unfold padToMin
      rw [if_pos hlt, hresize]
      simp only [ok_bind, resetAccess_eq hg.list, hseek, hfill]
      rfl
    · rw [frontSlack_of_layout hg.list hreach₃.list hlayout, hg.front]
    · intro href
      rw [href₃, href₂]
      exact hg.ref href
    · rw [List.drop_eq_nil_iff, ← hp.exact, hlen]
      omega
    · intro hexact
      rw [hall, hp.capacity hexact]
      omega
  · have hle : etherDataMin ≤ b.capacity := Nat.le_of_not_lt hlt
    have hneed : padNeed m.blkSize b = 0 := by rw [padNeed, if_pos hle]
    refine ⟨m, b, blks, [], ?_, ⟨hb.list, hb.ok, ?_, rfl, hm, rfl, rfl, ?_, id⟩,
      iff_of_true rfl (Or.inr (Or.inl hle)), fun _ => ?_⟩
    · unfold padToMin
      rw [if_neg hlt]
    · rw [hlen, Nat.sub_eq_zero_of_le hle, List.replicate_zero, List.append_nil, List.append_nil,
        hb.bytes]
    · rw [hneed]
      exact left_of_none hm
    · omega

theorem padToMin_unfit (hm : m.Sound) (hb : b.Holds m.blkSize blks)
    (hfit : m.freeBytes < padNeed m.blkSize b) :
    ∃ m' b', padToMin m self b = .ok (.mem, m', b') ∧ m'.pktBuf = m.pktBuf ∧ b'.ref = 1 := by
  have hlt : b.capacity < etherDataMin := by
    by_contra hge
    rw [padNeed, if_pos (Nat.le_of_not_lt hge)] at hfit
    exact Nat.not_lt_zero _ hfit
  obtain ⟨m', b', hresize, hrest⟩ := resize_unfit self hm hb hlt hfit
  refine ⟨m', b', ?_, hrest⟩
  unfold padToMin
  rw [if_pos hlt, hresize]
  rfl

/-! ## The header -/

variable {first : PktBlock} {rest : List PktBlock}

/-- Writing over the first bytes of the first window. -/
theorem storeData_ok {B : Nat} (hlist : b.blkList = (first :: rest).map some)
    (hok : ∀ blk ∈ first :: rest, blk.Ok B) {xs : List UInt8} (hn : xs.length ≤ first.size) :
    ∃ blks', storeData b xs = .ok { b with blkList := blks'.map some } ∧
      layout blks' = layout (first :: rest) ∧ (∀ blk ∈ blks', blk.Ok B) ∧
      content blks' = splice (content (first :: rest)) 0 xs := by
  have hfirst := hok first List.mem_cons_self
  have hfits := hfirst.fits
  refine ⟨{ first with payload := splice first.payload first.data xs } :: rest, ?_, ?_, ?_, ?_⟩
  · rw [List.map_cons] at hlist
    unfold storeData
    simp only [hlist, store]
    rw [if_pos (by rw [hfirst.payload]; omega)]
    rfl
  · exact layout_set [] rest first _
  · intro blk hblk
    rcases List.mem_cons.mp hblk with rfl | hblk
    · exact ok_store (k := 0) hfirst (by omega)
    · exact hok blk (List.mem_cons_of_mem _ hblk)
  · have hc : 0 + xs.length ≤ first.size := by omega
    have hall : ∀ blk ∈ [] ++ first :: rest, blk.Ok B := hok
    exact content_store hall hc

/-- There is room for the header: in the first block, or in a free one. -/
def HeaderFits (m : PktManager) (b : PktBuffer) : Prop :=
  etherHdrSize ≤ b.frontSlack ∨ (etherHdrSize ≤ m.blkSize ∧ m.pktBlk.items ≠ [])

theorem allocHeader_ok (hm : m.Sound) (hlist : b.blkList = (first :: rest).map some)
    (hok : ∀ blk ∈ first :: rest, blk.Ok m.blkSize) (hfits : HeaderFits m b) :
    ∃ m' b' first' rest' fresh, allocHeader m b etherHdrSize true = .ok (.ok, m', b') ∧
      b'.blkList = (first' :: rest').map some ∧ (∀ blk ∈ first' :: rest', blk.Ok m.blkSize) ∧
      etherHdrSize ≤ first'.size ∧
      content (first' :: rest') = fresh ++ content (first :: rest) ∧
      fresh.length = etherHdrSize ∧ b'.capacity = add32 b.capacity etherHdrSize ∧
      b'.ref = b.ref ∧ m'.blkSize = m.blkSize ∧ m'.pktBuf = m.pktBuf := by
  have hfront : b.frontSlack = first.data := by simp [frontSlack, hlist]
  have hfirst := hok first List.mem_cons_self
  have hB := hm.blkSize_lt
  have hfit := hfirst.fits
  have hrest : ∀ blk ∈ rest, blk.Ok m.blkSize := fun blk h => hok blk (List.mem_cons_of_mem _ h)
  by_cases hin : etherHdrSize ≤ first.data
  · have hsize : add32 first.size etherHdrSize = first.size + etherHdrSize := wrapAdd_eq (by omega)
    have heq := allocHeader_inPlace (m := m) hlist hin true
    rw [hsize] at heq
    refine ⟨m, _, _, rest, slice first.payload (first.data - etherHdrSize) etherHdrSize, heq, rfl,
      ?_, Nat.le_add_left _ _, ?_, ?_, rfl, rfl, rfl, rfl⟩
    · intro blk hblk
      rcases List.mem_cons.mp hblk with rfl | hblk
      · exact grow_front_ok hfirst hin
      · exact hrest blk hblk
    · rw [content_cons, content_cons, grow_front_window hin, List.append_assoc]
    · exact length_slice_of_le (by rw [hfirst.payload]; omega)
  · have hnew : etherHdrSize ≤ m.blkSize ∧ m.pktBlk.items ≠ [] := by
      rcases hfits with hslack | hnew
      · rw [hfront] at hslack
        exact absurd hslack hin
      · exact hnew
    obtain ⟨free, hpool⟩ := hm.pool
    cases hfree : free with
    | nil =>
      rw [hpool.items, hfree] at hnew
      exact absurd rfl hnew.2
    | cons blk free' =>
      rw [hfree] at hpool
      have hpay := hpool.payload blk List.mem_cons_self
      have heq := allocHeader_newBlock hlist (Nat.lt_of_not_le hin) hnew.1 hpool
      refine ⟨_, _, _, first :: rest, slice blk.payload (m.blkSize - etherHdrSize) etherHdrSize,
        heq, rfl, ?_, Nat.le_refl _, ?_, ?_, rfl, rfl, rfl, rfl⟩
      · intro blk' hblk'
        rcases List.mem_cons.mp hblk' with rfl | hblk'
        · exact carve_ok hpay true (by decide) hnew.1
        · exact hok blk' hblk'
      · rw [content_cons]
        rfl
      · exact length_slice_of_le (by omega)

theorem allocHeader_unfit (hm : m.Sound) (hlist : b.blkList = (first :: rest).map some)
    (hfits : ¬ HeaderFits m b) :
    ∃ e b', allocHeader m b etherHdrSize true = .ok (e, m, b') ∧ e.isErr = true ∧
      b'.ref = b.ref := by
  have hfront : b.frontSlack = first.data := by simp [frontSlack, hlist]
  rw [HeaderFits, not_or, hfront] at hfits
  have hin : first.data < etherHdrSize := Nat.lt_of_not_le hfits.1
  by_cases hbig : etherHdrSize ≤ m.blkSize
  · obtain ⟨free, hpool⟩ := hm.pool
    have hnil : free = [] := by
      by_contra hne
      refine hfits.2 ⟨hbig, ?_⟩
      rw [hpool.items]
      simpa using hne
    rw [hnil] at hpool
    exact ⟨.none, _, allocHeader_noBlock hlist hin hbig hpool, rfl, rfl⟩
  · exact ⟨.size, b, allocHeader_tooBig hlist hin (Nat.lt_of_not_le hbig), rfl, rfl⟩

/-! ## The whole frame -/

/-- What lies in the buffer when the frame has been built. -/
structure Framed (m : PktManager) (b : PktBuffer) (hdr : List UInt8) (m' : PktManager)
    (b' : PktBuffer) : Prop where
  bytes : ∃ rest, b'.bytes =
    hdr ++ (b.bytes ++ (List.replicate (etherDataMin - b.bytes.length) 0 ++ rest)) ∧
      (rest = [] ↔ PadExact m.blkSize b)
  holds : PadExact m.blkSize b → b.capacity + etherHdrSize < 2 ^ 32 →
    ∃ blks', b'.Holds m.blkSize blks'
  blkSize : m'.blkSize = m.blkSize
  pktBuf : m'.pktBuf = m.pktBuf
  ref : b.ref = 1 → b'.ref = 1

/-- At least `ETHER_DATA_MIN` bytes, so there is a first block. -/
theorem padded_ne_nil {m' : PktManager} {b' : PktBuffer} {need : Nat} {more : List UInt8}
    (hg : Grown m b need m' b' blks
      (List.replicate (etherDataMin - b.bytes.length) 0 ++ more)) : blks ≠ [] := by
  intro hnil
  have hbytes := congrArg List.length hg.bytes
  rw [hnil, content_nil] at hbytes
  simp only [List.length_nil, List.length_append, List.length_replicate, etherDataMin] at hbytes
  omega

theorem buildFrame_ok (hm : m.Sound) (hb : b.Holds m.blkSize blks) (hfits : FrameFits m b)
    (protocol : UInt16) (dest src : HwAddr) :
    ∃ m' b', buildFrame m self b protocol dest src = .ok (.ok, m', b') ∧
      Framed m b (etherHdr dest src protocol) m' b' := by
  obtain ⟨m₁, b₁, blks₁, more, hpad, hg, hmore, hcapacity⟩ :=
    padToMin_ok self hm hb hfits.1
  have hlen : b.bytes.length = b.capacity := hb.bytes_length
  cases hblks : blks₁ with
  | nil => exact absurd hblks (padded_ne_nil hg)
  | cons first rest =>
    rw [hblks] at hg
    have hheader : HeaderFits m₁ b₁ := by
      rw [HeaderFits, hg.front, hg.blkSize, hg.left]
      exact hfits.2
    have hok₁ : ∀ blk ∈ first :: rest, blk.Ok m₁.blkSize := by
      rw [hg.blkSize]
      exact hg.ok
    obtain ⟨m₂, b₂, first', rest', fresh, halloc, hlist₂, hok₂, hsize, hcontent₂, hfresh, hcap₂,
      href₂, hblk₂, hbuf₂⟩ := allocHeader_ok hg.sound hg.list hok₁ hheader
    have hhdr : (etherHdr dest src protocol).length = etherHdrSize := etherHdr_length ..
    obtain ⟨blks₃, hstore, hlayout, hok₃, hcontent₃⟩ :=
      storeData_ok hlist₂ hok₂ (hhdr.trans_le hsize)
    have hbytes : content blks₃ = etherHdr dest src protocol ++ (b.bytes ++
        (List.replicate (etherDataMin - b.bytes.length) 0 ++ more)) := by
      rw [hcontent₃, hcontent₂, splice_zero, hhdr, ← hfresh, List.drop_left, hg.bytes]
    refine ⟨m₂, { b₂ with blkList := blks₃.map some }, ?_, ⟨more, ?_, hmore⟩, ?_, ?_, ?_, ?_⟩
    · unfold buildFrame
      simp only [hpad, halloc, hstore, ok_bind]
      rfl
    · rw [bytes_of_list rfl, hbytes]
    · intro hexact hlt
      have hsizes : sizes blks₃ = etherHdrSize + max etherDataMin b.capacity := by
        rw [← content_length hok₃, hbytes, hmore.mpr hexact]
        simp only [List.length_append, List.length_replicate, List.append_nil, hhdr, hlen]
        omega
      have hmin : etherDataMin = 46 := rfl
      have hhdrSize : etherHdrSize = 14 := rfl
      refine ⟨blks₃, rfl, ?_, ?_, by omega⟩
      · rw [← hg.blkSize]
        exact hok₃
      · change b₂.capacity = sizes blks₃
        rw [hcap₂, hcapacity hexact, add32, wrapAdd_eq (by omega), hsizes]
        omega
    · rw [hblk₂, hg.blkSize]
    · rw [hbuf₂, hg.pktBuf]
    · intro href
      exact href₂.trans (hg.ref href)

/-- Too few blocks: an error, and the buffer is still the caller's. -/
theorem buildFrame_unfit (hm : m.Sound) (hb : b.Holds m.blkSize blks)
    (hfits : ¬ FrameFits m b) (protocol : UInt16) (dest src : HwAddr) :
    ∃ e m' b', buildFrame m self b protocol dest src = .ok (e, m', b') ∧ e.isErr = true ∧
      m'.pktBuf = m.pktBuf ∧ (b.ref = 1 → b'.ref = 1) := by
  by_cases hpadfit : padNeed m.blkSize b ≤ m.freeBytes
  · obtain ⟨m₁, b₁, blks₁, more, hpad, hg, -, -⟩ := padToMin_ok self hm hb hpadfit
    cases hblks : blks₁ with
    | nil => exact absurd hblks (padded_ne_nil hg)
    | cons first rest =>
      have hheader : ¬ HeaderFits m₁ b₁ := by
        rw [HeaderFits, hg.front, hg.blkSize, hg.left]
        exact fun h => hfits ⟨hpadfit, h⟩
      obtain ⟨e, b₂, halloc, herr, href₂⟩ :=
        allocHeader_unfit hg.sound (by rw [hg.list, hblks]) hheader
      refine ⟨e, m₁, b₂, ?_, herr, hg.pktBuf, fun href => href₂.trans (hg.ref href)⟩
      unfold buildFrame
      simp only [hpad, halloc, ok_bind, herr, if_true]
      rfl
  · obtain ⟨m₁, b₁, hpad, hbuf, href₁⟩ :=
      padToMin_unfit self hm hb (Nat.lt_of_not_le hpadfit)
    refine ⟨.mem, m₁, b₁, ?_, rfl, hbuf, fun _ => href₁⟩
    unfold buildFrame
    simp only [hpad, ok_bind]
    rfl

end Grow

/-! ## ether_raw_out -/

section RawOut

variable {s : Stack} {buf : BufId} {blks : List PktBlock}

/-- The packet went to the queue for its destination. -/
def Queued (s s' : Stack) (dest : HwAddr) (buf : BufId) : Prop :=
  if s.netif.hwaddr = dest then
    s'.netif = { s.netif with inQ := { s.netif.inQ with items := s.netif.inQ.items ++ [buf] } }
  else
    s'.netif = { s.netif with outQ := { s.netif.outQ with items := s.netif.outQ.items ++ [buf] } }

/-- With enough blocks and room in the queue the frame is queued. -/
theorem etherRawOut_ok (hm : s.mgr.Sound) (hb : (s.bufs buf).Holds s.mgr.blkSize blks)
    (hfits : FrameFits s.mgr (s.bufs buf)) (protocol : UInt16) {dest : HwAddr}
    (hroom : QueueRoom s.netif dest) :
    ∃ s', EtherNet.etherRawOut s protocol dest buf = .ok (.ok, s') ∧
      Framed s.mgr (s.bufs buf) (etherHdr dest s.netif.hwaddr protocol) s'.mgr (s'.bufs buf) ∧
      Queued s s' dest buf := by
  obtain ⟨m', b', hbuild, hframed⟩ :=
    buildFrame_ok buf hm hb hfits protocol dest s.netif.hwaddr
  unfold EtherNet.etherRawOut
  simp only [hbuild, ok_bind, Stack.putPkt_netif]
  rw [if_neg (by decide)]
  unfold QueueRoom at hroom
  unfold Queued
  by_cases hself : s.netif.hwaddr = dest
  · simp only [if_pos hself] at hroom ⊢
    obtain ⟨s', hput, hworld, hnetif⟩ :=
      Stack.putBufToInQueue_room (s := s.putPkt m' buf b') hroom buf
    refine ⟨s', by rw [hput], ?_, hnetif⟩
    rw [hworld]
    simpa [Stack.putPkt] using hframed
  · simp only [if_neg hself] at hroom ⊢
    have hput := Stack.putBufToOutQueue_room (s := s.putPkt m' buf b') hroom buf
    simp only [hput]
    exact ⟨_, rfl, by simpa using hframed, rfl⟩

/-- Otherwise the call fails, and the packet is in no queue and not released. -/
theorem etherRawOut_err (hm : s.mgr.Sound) (hb : (s.bufs buf).Holds s.mgr.blkSize blks)
    (protocol : UInt16) {dest : HwAddr}
    (hfail : ¬ (FrameFits s.mgr (s.bufs buf) ∧ QueueRoom s.netif dest)) :
    ∃ e m' b', EtherNet.etherRawOut s protocol dest buf = .ok (e, s.putPkt m' buf b') ∧
      e.isErr = true ∧ m'.pktBuf = s.mgr.pktBuf ∧ ((s.bufs buf).ref = 1 → b'.ref = 1) := by
  unfold EtherNet.etherRawOut
  by_cases hfits : FrameFits s.mgr (s.bufs buf)
  · obtain ⟨m', b', hbuild, hframed⟩ :=
      buildFrame_ok buf hm hb hfits protocol dest s.netif.hwaddr
    refine ⟨.full, m', b', ?_, rfl, hframed.pktBuf, hframed.ref⟩
    have hfull : ¬ QueueRoom s.netif dest := fun hroom => hfail ⟨hfits, hroom⟩
    simp only [hbuild, ok_bind, Stack.putPkt_netif]
    rw [if_neg (by decide)]
    unfold QueueRoom at hfull
    by_cases hself : s.netif.hwaddr = dest
    · simp only [if_pos hself] at hfull ⊢
      rw [Stack.putBufToInQueue_full (s := s.putPkt m' buf b') (Nat.le_of_not_lt hfull)]
    · simp only [if_neg hself] at hfull ⊢
      rw [Stack.putBufToOutQueue_full (s := s.putPkt m' buf b') (Nat.le_of_not_lt hfull)]
      rfl
  · obtain ⟨e, m', b', hbuild, herr, hbuf, href'⟩ :=
      buildFrame_unfit buf hm hb hfits protocol dest s.netif.hwaddr
    refine ⟨e, m', b', ?_, herr, hbuf, href'⟩
    simp only [hbuild, ok_bind, herr, if_true]

/-- What the caller of `ether_raw_out` may expect of a frame it queued. -/
def FramesExactly (s : Stack) (protocol : UInt16) (dest : HwAddr) (buf : BufId) : Prop :=
  ∀ s', EtherNet.etherRawOut s protocol dest buf = .ok (.ok, s') →
    Queued s s' dest buf ∧
      (s'.bufs buf).bytes = etherFrame dest s.netif.hwaddr protocol (s.bufs buf).bytes ∧
      (s'.bufs buf).capacity = etherHdrSize + max etherDataMin (s.bufs buf).capacity

/-- The queued bytes are the frame exactly if the padding is exact or the
call cannot succeed. -/
theorem etherRawOut_frames_iff (hm : s.mgr.Sound) (hb : (s.bufs buf).Holds s.mgr.blkSize blks)
    (hlen : (s.bufs buf).capacity ≤ etherMtu) (protocol : UInt16) (dest : HwAddr) :
    FramesExactly s protocol dest buf ↔
      PadExact s.mgr.blkSize (s.bufs buf) ∨ ¬ FrameFits s.mgr (s.bufs buf) ∨
        ¬ QueueRoom s.netif dest := by
  have hmtu : etherMtu = 1500 := rfl
  have hhdrSize : etherHdrSize = 14 := rfl
  by_cases hgoes : FrameFits s.mgr (s.bufs buf) ∧ QueueRoom s.netif dest
  · obtain ⟨s', heq, hframed, hqueued⟩ := etherRawOut_ok hm hb hgoes.1 protocol hgoes.2
    obtain ⟨rest, hbytes, hrest⟩ := hframed.bytes
    have hframe : (s'.bufs buf).bytes =
        etherFrame dest s.netif.hwaddr protocol (s.bufs buf).bytes ++ rest := by
      rw [hbytes, etherFrame, etherHdr_eq]
      simp only [List.append_assoc]
    have hiff : FramesExactly s protocol dest buf ↔ PadExact s.mgr.blkSize (s.bufs buf) := by
      constructor
      · intro h
        obtain ⟨-, hexact, -⟩ := h s' heq
        rw [hframe] at hexact
        exact hrest.mp (List.append_cancel_left (hexact.trans (List.append_nil _).symm))
      · intro hexact s'' heq'
        rw [heq] at heq'
        obtain rfl : s' = s'' := by simpa using heq'
        obtain ⟨blks', hholds⟩ := hframed.holds hexact (by omega)
        have hall : (s'.bufs buf).bytes =
            etherFrame dest s.netif.hwaddr protocol (s.bufs buf).bytes := by
          rw [hframe, hrest.mpr hexact, List.append_nil]
        refine ⟨hqueued, hall, ?_⟩
        rw [← hholds.bytes_length, hall, etherFrame_length, hb.bytes_length]
    rw [hiff]
    constructor
    · exact Or.inl
    · rintro (hexact | hfits | hroom)
      · exact hexact
      · exact absurd hgoes.1 hfits
      · exact absurd hgoes.2 hroom
  · refine iff_of_true ?_ (Or.inr (not_and_or.mp hgoes))
    intro s' heq
    obtain ⟨e, m', b', herr, hisErr, -⟩ := etherRawOut_err hm hb protocol hgoes
    rw [heq] at herr
    obtain ⟨rfl, -⟩ : NetErr.ok = e ∧ _ := by simpa using herr
    cases hisErr

end RawOut

/-- An interface with a packet of one byte in a block of 48, and a free block. -/
def oneByte (data : Nat) : Stack where
  mgr := {
    blkSize := 48
    pktBlk := ⟨2, [some ⟨1, 0, 0, List.replicate 48 7⟩]⟩
    pktBuf := ⟨2, []⟩ }
  bufs _ := {
    capacity := 1, pos := 0, curBlk := .at 0, blkOffset := some data, ref := 1
    blkList := [some ⟨0, 1, data, List.replicate 48 9⟩] }
  netif := quietEther 2
  memBlock := ⟨2, [0, 1]⟩
  msgQueue := ⟨2, []⟩

theorem etherRawOut_frames_one_byte :
    FramesExactly (oneByte 47) protocolArp etherBroadcastAddr 0 := by
  have hm : (oneByte 47).mgr.Sound :=
    ⟨by decide, by decide, ⟨[⟨1, 0, 0, List.replicate 48 7⟩], rfl, by decide⟩, by decide⟩
  have hb : ((oneByte 47).bufs 0).Holds 48 [⟨0, 1, 47, List.replicate 48 9⟩] :=
    ⟨rfl, by decide, rfl, by decide⟩
  exact (etherRawOut_frames_iff hm hb (by decide) protocolArp etherBroadcastAddr).mpr
    (Or.inl (by decide))

/-- With 47 bytes of slack behind it the padding takes in 46 bytes and not 45. -/
theorem etherRawOut_overlong_frame :
    ((oneByte 0).bufs 0).Holds 48 [⟨0, 1, 0, List.replicate 48 9⟩] ∧
      ((oneByte 0).bufs 0).capacity ≤ etherMtu ∧
      ¬ FramesExactly (oneByte 0) protocolArp etherBroadcastAddr 0 := by
  refine ⟨⟨rfl, by decide, rfl, by decide⟩, by decide, fun h => ?_⟩
  obtain ⟨-, -, hcap⟩ := h _ rfl
  exact absurd hcap (by decide)

end TinyTcp.Net
