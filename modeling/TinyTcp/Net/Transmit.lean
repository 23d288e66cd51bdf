/-
TinyTcp.Net.Transmit — how long the packets are that `send_func` copies
into `rw_buffer`.

`rw_buffer` has 1514 bytes, and `send_func` reads the whole packet into it
(`FitsBuffer`). A packet that is padded ends up far below that, but one of
at least `ETHER_DATA_MIN` bytes only gets 14 more, whatever its length.
`Fits` is the condition under which a call hands over no packet that is
too long, and `sendSafe_iff_fits` says that it is the right one: in a run
the packets in the out-queue all fit exactly if every step meets it.

Between the calls the callers do what they like with everything else
(`others`); they leave the queue and the packets in it alone.
-/
import TinyTcp.Lib.Run
import TinyTcp.Net.Framing
import TinyTcp.Pkt.RefCount

namespace TinyTcp.Net

open TinyTcp.Lib TinyTcp.Pkt PktBuffer

/-! ## The buffer of `send_func` -/

/-- `send_func` can take the packet: it is no longer than `rw_buffer`, and
reading it leaves the memory behind `rw_buffer` alone. -/
def FitsBuffer (b : PktBuffer) : Prop :=
  b.capacity ≤ etherHdrSize + etherMtu ∧
    ∀ (behind mem : List UInt8) (e : NetErr) (b₁ b' : PktBuffer), b.resetAccess = .ok b₁ →
      b₁.read (some (List.replicate (etherHdrSize + etherMtu) 0 ++ behind)) b.capacity =
        .ok (e, some mem, b') →
      mem.drop (etherHdrSize + etherMtu) = behind

theorem fitsBuffer_iff (b : PktBuffer) :
    FitsBuffer b ↔ b.capacity ≤ etherHdrSize + etherMtu := by
  constructor
  · exact fun h => h.1
  · intro hle
    refine ⟨hle, ?_⟩
    intro behind mem e b₁ b' _ hread
    obtain ⟨-, hdrop⟩ := read_behind hread
    -- what lies behind the packet includes what lies behind `rw_buffer`
    have hmore := congrArg (List.drop (etherHdrSize + etherMtu - b.capacity)) hdrop
    rw [List.drop_drop, List.drop_drop, Nat.add_sub_cancel' hle] at hmore
    rw [hmore]
    exact List.drop_left' List.length_replicate

/-! ## How long a packet gets -/

section Packet

variable {m m' : PktManager} {self : BufId} {b b' : PktBuffer} {e : NetErr}

/-- A packet that is too short to be sent ends up below twice the least length. -/
theorem resize_short (hlt : b.capacity < etherDataMin)
    (h : resize m self b etherDataMin = .ok (e, m', b')) : b'.capacity < 2 * etherDataMin := by
  have hmin : etherDataMin = 46 := rfl
  -- what an `alloc` on top of `c` bytes leaves
  have halloc : ∀ (b₁ : PktBuffer) (n : Nat), b₁.capacity < 2 * etherDataMin →
      add32 b₁.capacity n = etherDataMin →
      ∀ r, (alloc m b₁ n false false >>= fun r =>
        if r.1 then .ok (NetErr.ok, r.2.1, r.2.2) else .ok (NetErr.mem, r.2.1, r.2.2)) = .ok r →
      r.2.2.capacity < 2 * etherDataMin := by
    intro b₁ n hshort hsum r hr
    simp only [bind_eq_ok] at hr
    obtain ⟨⟨ok, m₁, b₂⟩, heq, hr⟩ := hr
    have hcap : b₂.capacity = _ := congrArg Prod.fst (alloc_fixed heq).2
    cases ok with
    | true =>
      cases hr
      rw [if_pos rfl] at hcap
      rw [hcap, hsum]
      decide
    | false =>
      cases hr
      rw [if_neg Bool.false_ne_true] at hcap
      have hback : sub32 (add32 b₁.capacity n) n = b₁.capacity := wrapSub_wrapAdd (by omega) n
      rw [hcap, hback]
      exact hshort
  unfold resize at h
  rw [if_neg (by omega)] at h
  split at h
  · rename_i hzero
    refine halloc b etherDataMin (by omega) ?_ _ h
    rw [hzero]
    rfl
  simp only [bind_eq_ok] at h
  obtain ⟨⟨init, tail⟩, -, h⟩ := h
  dsimp only at h
  split at h
  · cases h
    have hsum : add32 b.capacity etherDataMin = b.capacity + etherDataMin := wrapAdd_eq (by omega)
    change add32 b.capacity etherDataMin < 2 * etherDataMin
    omega
  · rename_i hslack
    have hsum : add32 b.capacity (tail.getLastSize m.blkSize) =
        b.capacity + tail.getLastSize m.blkSize := wrapAdd_eq (by omega)
    refine halloc _ _ ?_ ?_ _ h
    · change add32 b.capacity (tail.getLastSize m.blkSize) < 2 * etherDataMin
      omega
    · exact wrapAdd_wrapSub (Nat.mod_lt _ (by decide)) (by decide)

theorem padToMin_short (hlt : b.capacity < etherDataMin)
    (h : padToMin m self b = .ok (e, m', b')) : b'.capacity < 2 * etherDataMin := by
  unfold padToMin at h
  rw [if_pos hlt] at h
  simp only [bind_eq_ok] at h
  obtain ⟨⟨e₁, m₁, b₁⟩, hresize, h⟩ := h
  have hshort := resize_short hlt hresize
  split at h
  · cases h
    exact hshort
  · simp only [bind_eq_ok] at h
    obtain ⟨b₂, hreset, ⟨e₃, b₃⟩, hseek, ⟨e₄, b₄⟩, hfill, heq⟩ := h
    cases heq
    have hcap : b₄.capacity = b₁.capacity := congrArg Prod.fst
      (((fill_fixed hfill).trans (seek_fixed hseek)).trans (resetAccess_fixed hreset))
    rw [hcap]
    exact hshort

theorem padToMin_long (hle : etherDataMin ≤ b.capacity) : padToMin m self b = .ok (.ok, m, b) := by
  unfold padToMin
  rw [if_neg (Nat.not_lt.mpr hle)]

/-- There is a first block, and room for a header in front of it or in one of its own. -/
def HeaderGoes (m : PktManager) (b : PktBuffer) : Prop := b.blkList ≠ [] ∧ HeaderFits m b

instance (m : PktManager) (b : PktBuffer) : Decidable (HeaderGoes m b) := by
  unfold HeaderGoes HeaderFits
  infer_instance

theorem allocHeader_fixed (h : allocHeader m b etherHdrSize true = .ok (e, m', b')) :
    if HeaderGoes m b then e = .ok ∧ b'.fixed = (add32 b.capacity etherHdrSize, b.ref)
    else e.isErr = true ∧ b'.fixed = b.fixed := by
  unfold allocHeader at h
  split at h
  · rename_i hlist
    cases h
    rw [if_neg (fun hgoes => hgoes.1 hlist)]
    exact ⟨rfl, rfl⟩
  · cases h
  · rename_i first rest hlist
    have hne : b.blkList ≠ [] := by simp [hlist]
    have hslack : b.frontSlack = first.data := by rw [frontSlack, hlist]
    dsimp only at h
    split at h
    · rename_i hin
      cases h
      rw [if_pos ⟨hne, Or.inl (by rw [hslack]; exact hin)⟩]
      exact ⟨rfl, rfl⟩
    rename_i hin
    have hout : ¬ etherHdrSize ≤ b.frontSlack := by
      rw [hslack]
      exact hin
    rw [if_pos rfl] at h
    split at h
    · rename_i hbig
      cases h
      rw [if_neg (fun hgoes => hgoes.2.elim hout fun hnew => by omega)]
      exact ⟨rfl, rfl⟩
    rename_i hbig
    simp only [bind_eq_ok] at h
    obtain ⟨⟨ptr, m₁⟩, hget, h⟩ := h
    unfold PktManager.getPktblock Fifo.pop at hget
    cases hitems : m.pktBlk.items with
    | nil =>
      rw [hitems] at hget
      cases hget
      cases h
      rw [if_neg (fun hgoes => hgoes.2.elim hout fun hnew => hnew.2 hitems)]
      exact ⟨rfl, rfl⟩
    | cons ptr' items =>
      rw [hitems] at hget
      cases ptr' with
      | none => cases hget
      | some blk =>
        cases hget
        cases h
        rw [if_pos ⟨hne, Or.inr ⟨by omega, by rw [hitems]; exact List.cons_ne_nil _ _⟩⟩]
        exact ⟨rfl, rfl⟩

theorem storeData_fixed {xs : List UInt8} (h : storeData b xs = .ok b') : b'.fixed = b.fixed := by
  unfold storeData at h
  split at h
  · cases h
  · cases h
  · simp only [bind_eq_ok] at h
    obtain ⟨payload, -, heq⟩ := h
    cases heq
    rfl

variable {protocol : UInt16} {dest src : HwAddr}

/-- A packet of at least `ETHER_DATA_MIN` bytes gets a header, if that goes in. -/
theorem buildFrame_long (hle : etherDataMin ≤ b.capacity)
    (h : buildFrame m self b protocol dest src = .ok (e, m', b')) :
    if HeaderGoes m b then e = .ok ∧ b'.fixed = (add32 b.capacity etherHdrSize, b.ref)
    else e.isErr = true ∧ b'.fixed = b.fixed := by
  unfold buildFrame at h
  rw [padToMin_long hle, ok_bind] at h
  dsimp only at h
  rw [if_neg (by decide)] at h
  simp only [bind_eq_ok] at h
  obtain ⟨⟨e₁, m₁, b₁⟩, hheader, h⟩ := h
  have hfixed := allocHeader_fixed hheader
  by_cases hgoes : HeaderGoes m b
  · rw [if_pos hgoes] at hfixed ⊢
    obtain ⟨rfl, hfixed⟩ := hfixed
    rw [if_neg (show ¬ NetErr.ok.isErr = true by decide)] at h
    simp only [bind_eq_ok] at h
    obtain ⟨b₂, hstore, heq⟩ := h
    cases heq
    exact ⟨rfl, (storeData_fixed hstore).trans hfixed⟩
  · rw [if_neg hgoes] at hfixed ⊢
    rw [if_pos hfixed.1] at h
    cases h
    exact hfixed

/-- A shorter one is short afterwards. -/
theorem buildFrame_short (hlt : b.capacity < etherDataMin)
    (h : buildFrame m self b protocol dest src = .ok (e, m', b')) :
    b'.capacity ≤ etherHdrSize + etherMtu := by
  have hmin : etherDataMin = 46 := rfl
  have hmtu : etherMtu = 1500 := rfl
  have hhdr : etherHdrSize = 14 := rfl
  unfold buildFrame at h
  simp only [bind_eq_ok] at h
  obtain ⟨⟨e₁, m₁, b₁⟩, hpad, h⟩ := h
  have hshort := padToMin_short hlt hpad
  split at h
  · cases h
    change b₁.capacity ≤ _
    omega
  simp only [bind_eq_ok] at h
  obtain ⟨⟨e₂, m₂, b₂⟩, hheader, h⟩ := h
  have hcap₂ : b₂.capacity ≤ b₁.capacity + etherHdrSize := by
    have hfixed := allocHeader_fixed hheader
    split at hfixed
    · have hcap : b₂.capacity = add32 b₁.capacity etherHdrSize := congrArg Prod.fst hfixed.2
      rw [hcap]
      exact Nat.mod_le _ _
    · have hcap : b₂.capacity = b₁.capacity := congrArg Prod.fst hfixed.2
      omega
  split at h
  · cases h
    change b₂.capacity ≤ _
    omega
  · simp only [bind_eq_ok] at h
    obtain ⟨b₃, hstore, heq⟩ := h
    cases heq
    have hcap : b'.capacity = b₂.capacity := congrArg Prod.fst (storeData_fixed hstore)
    omega

end Packet

/-! ## The send path -/

/-- `m_capacity` is a `uint32_t`. -/
def Stack.Words (s : Stack) : Prop := ∀ x, (s.bufs x).capacity < 2 ^ 32

/-- The calls of the send path, and everything else that goes on in between. -/
inductive SendAct where
  | rawOut (protocol : UInt16) (dest : HwAddr) (buf : BufId)
  | netifOut (ip : IpAddr) (buf : BufId)
  | send
  | others (t : { t : Stack // t.Words })

/-- A call that faults is not a step; the others leave the out-queue and the packets
in it alone. -/
def nextSend (s : Stack) : SendAct → Option Stack
  | .rawOut protocol dest buf =>
      match EtherNet.etherRawOut s protocol dest buf with
      | .ok (_, s) => some s
      | .error _ => none
  | .netifOut ip buf =>
      match netifOut s ip buf with
      | .ok (_, s) => some s
      | .error _ => none
  | .send =>
      match sendFunc s with
      | .ok (_, s) => some s
      | .error _ => none
  | .others t =>
      if t.val.netif.type = s.netif.type ∧ t.val.netif.outQ = s.netif.outQ ∧
          ∀ x ∈ s.netif.outQ.items, t.val.bufs x = s.bufs x
      then some t.val else none

/-- No packet that waits in the out-queue overruns `rw_buffer`. -/
def SendSafe (s : Stack) : Prop := ∀ x ∈ s.netif.outQ.items, FitsBuffer (s.bufs x)

/-- A frame for this address goes to the out-queue. -/
def Enters (s : Stack) (dest : HwAddr) : Prop :=
  s.netif.hwaddr ≠ dest ∧ s.netif.outQ.items.length < s.netif.outQ.cap

/-- More than `ETHER_MTU` bytes get a header and are in the out-queue then. -/
def Overlong (s : Stack) (dest : HwAddr) (buf : BufId) : Prop :=
  etherMtu < (s.bufs buf).capacity ∧ (s.bufs buf).capacity + etherHdrSize < 2 ^ 32 ∧
    HeaderGoes s.mgr (s.bufs buf) ∧ (buf ∈ s.netif.outQ.items ∨ Enters s dest)

/-- When a call leaves no packet in the out-queue that is too long. To its own address
`netif_out` sends the packet itself, and gives up what it cannot send; to others it
sends a request. -/
def Fits (s : Stack) : SendAct → Prop
  | .rawOut _ dest buf => ¬ Overlong s dest buf
  | .netifOut ip buf =>
      s.netif.ipaddr = ip → ¬ Overlong s etherBroadcastAddr buf ∨
        (¬ QueueRoom s.netif etherBroadcastAddr ∧ (s.bufs buf).ref = 1)
  | .send => True
  | .others _ => True

instance (s : Stack) (dest : HwAddr) : Decidable (Enters s dest) :=
  inferInstanceAs (Decidable (_ ∧ _))

instance (s : Stack) (dest : HwAddr) (buf : BufId) : Decidable (Overlong s dest buf) :=
  inferInstanceAs (Decidable (_ ∧ _ ∧ _ ∧ (_ ∨ _)))

instance (s : Stack) : ∀ a : SendAct, Decidable (Fits s a)
  | .rawOut .. => inferInstanceAs (Decidable (¬ _))
  | .netifOut .. => inferInstanceAs (Decidable (_ → ¬ _ ∨ (¬ _ ∧ _)))
  | .send => isTrue trivial
  | .others _ => isTrue trivial

section Steps

variable {s s' t : Stack} {buf : BufId} {e : NetErr}

theorem sendSafe_iff :
    SendSafe s ↔ ∀ x ∈ s.netif.outQ.items, (s.bufs x).capacity ≤ etherHdrSize + etherMtu := by
  simp only [SendSafe, fitsBuffer_iff]

/-! ## Short packets -/

/-- Lengths only change to short ones, and only short packets come into the queue. -/
structure Harmless (s s' : Stack) : Prop where
  type : s'.netif.type = s.netif.type
  length : ∀ x, (s'.bufs x).capacity = (s.bufs x).capacity ∨
    (s'.bufs x).capacity ≤ etherHdrSize + etherMtu
  queue : ∀ x ∈ s'.netif.outQ.items, x ∈ s.netif.outQ.items ∨
    (s'.bufs x).capacity ≤ etherHdrSize + etherMtu

theorem Harmless.refl (s : Stack) : Harmless s s :=
  ⟨rfl, fun _ => Or.inl rfl, fun _ hx => Or.inl hx⟩

theorem Harmless.trans (h : Harmless s s') (h' : Harmless s' t) : Harmless s t := by
  refine ⟨h'.type.trans h.type, ?_, ?_⟩
  · intro x
    rcases h'.length x with hsame | hshort
    · rw [hsame]
      exact h.length x
    · exact Or.inr hshort
  · intro x hx
    rcases h'.queue x hx with hin | hshort
    · rcases h.queue x hin with hin | hshort
      · exact Or.inl hin
      · rcases h'.length x with hsame | hshort'
        · exact Or.inr (by rw [hsame]; exact hshort)
        · exact Or.inr hshort'
    · exact Or.inr hshort

/-- One packet changes, and its length only to a short one. -/
theorem Harmless.put (s : Stack) (m : PktManager) {b : PktBuffer}
    (h : b.capacity = (s.bufs buf).capacity ∨ b.capacity ≤ etherHdrSize + etherMtu) :
    Harmless s (s.putPkt m buf b) := by
  refine ⟨rfl, ?_, fun _ hx => Or.inl hx⟩
  intro x
  by_cases hx : x = buf
  · rw [hx, Stack.putPkt_self]
    exact h
  · rw [Stack.putPkt_of_ne _ hx]
    exact Or.inl rfl

theorem free_capacity (m : PktManager) (self : BufId) (b : PktBuffer) :
    (PktBuffer.free m self b).2.capacity = if b.ref = 1 then 0 else b.capacity := by
  have hlast : b.ref - 1 = 0 ↔ b.ref = 1 := by
    constructor
    · intro h
      grind
    · intro h
      rw [h]
      rfl
  unfold PktBuffer.free
  by_cases hone : b.ref = 1
  · simp only [hlast.mpr hone, if_true, if_pos hone]
  · simp only [if_neg (fun h => hone (hlast.mp h)), if_neg hone]

theorem Harmless.freeBuf (s : Stack) (buf : BufId) : Harmless s (s.freeBuf buf) := by
  refine Harmless.put s (PktBuffer.free s.mgr buf (s.bufs buf)).1
    (b := (PktBuffer.free s.mgr buf (s.bufs buf)).2) ?_
  rw [free_capacity]
  split
  · exact Or.inr (Nat.zero_le _)
  · exact Or.inl rfl

/-- Such a step keeps everything. -/
theorem Harmless.keeps (h : Harmless s s') (hwords : s.Words) :
    s'.Words ∧ (SendSafe s → SendSafe s') := by
  have hhdr : etherHdrSize = 14 := rfl
  have hmtu : etherMtu = 1500 := rfl
  constructor
  · intro x
    have hx := hwords x
    rcases h.length x with hsame | hshort
    · rw [hsame]
      exact hx
    · omega
  · rw [sendSafe_iff, sendSafe_iff]
    intro hsafe x hx
    rcases h.length x with hsame | hshort
    · rcases h.queue x hx with hin | hshort
      · rw [hsame]
        exact hsafe x hin
      · exact hshort
    · exact hshort

/-! ## ether_raw_out -/

variable {protocol : UInt16} {dest : HwAddr}

/-- The packet is what `buildFrame` made of it, and in the out-queue if it goes there. -/
theorem etherRawOut_inv (h : EtherNet.etherRawOut s protocol dest buf = .ok (e, s')) :
    ∃ e₀ m b, buildFrame s.mgr buf (s.bufs buf) protocol dest s.netif.hwaddr = .ok (e₀, m, b) ∧
      (∀ x, x ≠ buf → s'.bufs x = s.bufs x) ∧ s'.bufs buf = b ∧
      s'.netif.type = s.netif.type ∧
      (e.isErr = true ↔ e₀.isErr = true ∨ ¬ QueueRoom s.netif dest) ∧
      s'.netif.outQ.items =
        if e₀.isErr = false ∧ Enters s dest then s.netif.outQ.items ++ [buf]
        else s.netif.outQ.items := by
  simp only [EtherNet.etherRawOut, bind_eq_ok] at h
  obtain ⟨⟨e₀, m, b⟩, hbuild, h⟩ := h
  refine ⟨e₀, m, b, hbuild, ?_⟩
  dsimp only at h
  have hothers : ∀ x, x ≠ buf → (s.putPkt m buf b).bufs x = s.bufs x :=
    fun x hx => Stack.putPkt_of_ne _ hx
  have hself : (s.putPkt m buf b).bufs buf = b := Stack.putPkt_self ..
  cases herr : e₀.isErr with
  | true =>
    rw [if_pos herr] at h
    cases h
    refine ⟨hothers, hself, rfl, iff_of_true herr (Or.inl rfl), ?_⟩
    rw [if_neg (fun hall => Bool.noConfusion hall.1)]
    rfl
  | false =>
    rw [if_neg (by rw [herr]; exact Bool.false_ne_true), Stack.putPkt_netif] at h
    unfold QueueRoom Enters
    by_cases hown : s.netif.hwaddr = dest
    · rw [if_pos hown] at h
      rw [if_pos hown, if_neg (fun hall => hall.2.1 hown)]
      by_cases hroom : s.netif.inQ.items.length < s.netif.inQ.cap
      · obtain ⟨t, hput, hworld, hnetif⟩ :=
          Stack.putBufToInQueue_room (s := s.putPkt m buf b) hroom buf
        rw [hput] at h
        cases h
        have hbufs : s'.bufs = (s.putPkt m buf b).bufs := congrArg World.bufs hworld
        refine ⟨by rw [hbufs]; exact hothers, by rw [hbufs]; exact hself, by rw [hnetif]; rfl,
          iff_of_false (by decide) ?_, by rw [hnetif]; rfl⟩
        rintro (hfalse | hfull)
        · exact Bool.noConfusion hfalse
        · exact hfull hroom
      · rw [Stack.putBufToInQueue_full (s := s.putPkt m buf b) (Nat.le_of_not_lt hroom)] at h
        cases h
        exact ⟨hothers, hself, rfl, iff_of_true rfl (Or.inr hroom), rfl⟩
    · rw [if_neg hown] at h
      rw [if_neg hown]
      by_cases hroom : s.netif.outQ.items.length < s.netif.outQ.cap
      · rw [Stack.putBufToOutQueue_room (s := s.putPkt m buf b) hroom] at h
        cases h
        rw [if_pos ⟨rfl, hown, hroom⟩]
        refine ⟨hothers, hself, rfl, iff_of_false (by decide) ?_, rfl⟩
        rintro (hfalse | hfull)
        · exact Bool.noConfusion hfalse
        · exact hfull hroom
      · rw [Stack.putBufToOutQueue_full (s := s.putPkt m buf b) (Nat.le_of_not_lt hroom)] at h
        cases h
        rw [if_neg (fun hall => hroom hall.2.2)]
        exact ⟨hothers, hself, rfl, iff_of_true rfl (Or.inr hroom), rfl⟩

/-- A call whose packet ends up short. -/
theorem etherRawOut_harmless (h : EtherNet.etherRawOut s protocol dest buf = .ok (e, s'))
    (hshort : (s'.bufs buf).capacity ≤ etherHdrSize + etherMtu) : Harmless s s' := by
  obtain ⟨e₀, m, b, -, hothers, -, htype, -, hqueue⟩ := etherRawOut_inv h
  refine ⟨htype, ?_, ?_⟩
  · intro x
    by_cases hx : x = buf
    · rw [hx]
      exact Or.inr hshort
    · rw [hothers x hx]
      exact Or.inl rfl
  · intro x hx
    rw [hqueue] at hx
    split at hx
    · rcases List.mem_append.mp hx with hin | hlast
      · exact Or.inl hin
      · rw [List.mem_singleton.mp hlast]
        exact Or.inr hshort
    · exact Or.inl hx

theorem etherRawOut_short (h : EtherNet.etherRawOut s protocol dest buf = .ok (e, s'))
    (hlt : (s.bufs buf).capacity < etherDataMin) : Harmless s s' := by
  obtain ⟨e₀, m, b, hbuild, -, hself, -⟩ := etherRawOut_inv h
  refine etherRawOut_harmless h ?_
  rw [hself]
  exact buildFrame_short hlt hbuild

/-- What becomes of a packet of at least `ETHER_DATA_MIN` bytes. -/
theorem etherRawOut_long (h : EtherNet.etherRawOut s protocol dest buf = .ok (e, s'))
    (hle : etherDataMin ≤ (s.bufs buf).capacity) :
    (∀ x, x ≠ buf → s'.bufs x = s.bufs x) ∧ s'.netif.type = s.netif.type ∧
      if HeaderGoes s.mgr (s.bufs buf)
      then (s'.bufs buf).fixed = (add32 (s.bufs buf).capacity etherHdrSize, (s.bufs buf).ref) ∧
        (e.isErr = true ↔ ¬ QueueRoom s.netif dest) ∧
        s'.netif.outQ.items =
          if Enters s dest then s.netif.outQ.items ++ [buf] else s.netif.outQ.items
      else (s'.bufs buf).fixed = (s.bufs buf).fixed ∧ e.isErr = true ∧
        s'.netif.outQ.items = s.netif.outQ.items := by
  obtain ⟨e₀, m, b, hbuild, hothers, hself, htype, herr, hqueue⟩ := etherRawOut_inv h
  have hfixed := buildFrame_long hle hbuild
  refine ⟨hothers, htype, ?_⟩
  rw [hself, herr, hqueue]
  by_cases hgoes : HeaderGoes s.mgr (s.bufs buf)
  · rw [if_pos hgoes] at hfixed ⊢
    obtain ⟨rfl, hfixed⟩ := hfixed
    refine ⟨hfixed, ?_, ?_⟩
    · simp [NetErr.isErr, NetErr.code]
    · simp [NetErr.isErr, NetErr.code]
  · rw [if_neg hgoes] at hfixed ⊢
    refine ⟨hfixed.2, Or.inl hfixed.1, ?_⟩
    rw [if_neg (fun hall => by rw [hfixed.1] at hall; exact Bool.noConfusion hall.1)]

/-- **One call** of `ether_raw_out` is safe exactly if it leaves no packet that is too
long in the queue. -/
theorem etherRawOut_safe_iff (hwords : s.Words) (hsafe : SendSafe s)
    (h : EtherNet.etherRawOut s protocol dest buf = .ok (e, s')) :
    s'.Words ∧ s'.netif.type = s.netif.type ∧ (SendSafe s' ↔ ¬ Overlong s dest buf) := by
  have hhdr : etherHdrSize = 14 := rfl
  have hmtu : etherMtu = 1500 := rfl
  have hmin : etherDataMin = 46 := rfl
  by_cases hlt : (s.bufs buf).capacity < etherDataMin
  · have hharm := etherRawOut_short h hlt
    obtain ⟨hwords', hkeeps⟩ := hharm.keeps hwords
    refine ⟨hwords', hharm.type, iff_of_true (hkeeps hsafe) ?_⟩
    rintro ⟨hlong, -⟩
    omega
  obtain ⟨hothers, htype, hcase⟩ := etherRawOut_long h (Nat.le_of_not_lt hlt)
  have hbound := hwords buf
  by_cases hgoes : HeaderGoes s.mgr (s.bufs buf)
  · rw [if_pos hgoes] at hcase
    obtain ⟨hfixed, -, hqueue⟩ := hcase
    have hcap : (s'.bufs buf).capacity = ((s.bufs buf).capacity + etherHdrSize) % 2 ^ 32 :=
      congrArg Prod.fst hfixed
    have hmem : ∀ x, x ∈ s'.netif.outQ.items ↔
        x ∈ s.netif.outQ.items ∨ (Enters s dest ∧ x = buf) := by
      intro x
      rw [hqueue]
      by_cases henters : Enters s dest
      · simp [henters]
      · simp [henters]
    refine ⟨?_, htype, ?_⟩
    · intro x
      by_cases hx : x = buf
      · rw [hx, hcap]
        exact Nat.mod_lt _ (by decide)
      · rw [hothers x hx]
        exact hwords x
    · rw [sendSafe_iff] at hsafe ⊢
      constructor
      · rintro hsafe' ⟨hlong, hnowrap, -, hin⟩
        have hlast := hsafe' buf ((hmem buf).mpr (hin.imp id fun henters => ⟨henters, rfl⟩))
        omega
      · intro hnot x hx
        by_cases hxbuf : x = buf
        · rw [hxbuf] at hx ⊢
          have hin := ((hmem buf).mp hx).imp id And.left
          rw [hcap]
          by_contra hlong
          exact hnot ⟨by omega, by omega, hgoes, hin⟩
        · rw [hothers x hxbuf]
          rcases (hmem x).mp hx with hin | ⟨-, hxbuf'⟩
          · exact hsafe x hin
          · exact absurd hxbuf' hxbuf
  · rw [if_neg hgoes] at hcase
    obtain ⟨hfixed, -, hqueue⟩ := hcase
    have hcap : (s'.bufs buf).capacity = (s.bufs buf).capacity := congrArg Prod.fst hfixed
    have hharm : Harmless s s' := by
      refine ⟨htype, ?_, fun x hx => Or.inl (by rw [← hqueue]; exact hx)⟩
      intro x
      by_cases hx : x = buf
      · rw [hx]
        exact Or.inl hcap
      · rw [hothers x hx]
        exact Or.inl rfl
    obtain ⟨hwords', hkeeps⟩ := hharm.keeps hwords
    exact ⟨hwords', htype, iff_of_true (hkeeps hsafe) fun hover => hgoes hover.2.2.1⟩

/-! ## netif_out and send_func -/

variable {ip : IpAddr}

/-- A request is short, and so is a packet that no request was made of. -/
theorem makeRequest_harmless {o : Option BufId} (h : EtherNet.makeRequest s ip = .ok (o, s')) :
    Harmless s s' ∧ ∀ x, o = some x → (s'.bufs x).capacity < etherDataMin := by
  have harp : arpPktSize = 28 := rfl
  have hmin : etherDataMin = 46 := rfl
  have hhdr : etherHdrSize = 14 := rfl
  have hmtu : etherMtu = 1500 := rfl
  unfold EtherNet.makeRequest at h
  cases hitems : s.mgr.pktBuf.items with
  | nil =>
    rw [s.getPktbuffer_nil hitems] at h
    cases h
    exact ⟨Harmless.refl s, fun x hx => by cases hx⟩
  | cons x pool =>
    rw [s.getPktbuffer_cons hitems] at h
    simp only [Stack.putPkt_mgr, Stack.putPkt_self, Stack.putPkt_netif, bind_eq_ok] at h
    obtain ⟨⟨ok, m, b⟩, halloc, h⟩ := h
    obtain ⟨s₀, hs₀⟩ : ∃ s₀, s₀ = s.putPkt { s.mgr with pktBuf :=
        { s.mgr.pktBuf with items := pool } } x (s.bufs x).reset := ⟨_, rfl⟩
    have hharm₀ : Harmless s s₀ := by
      rw [hs₀]
      exact Harmless.put s _ (Or.inr (Nat.zero_le _))
    have hcap : b.capacity ≤ arpPktSize := by
      have hfixed : b.capacity = _ := congrArg Prod.fst (alloc_fixed halloc).2
      have hzero : (s.bufs x).reset.capacity = 0 := rfl
      rw [hzero] at hfixed
      rw [hfixed]
      cases ok with
      | true => exact Nat.le_of_eq rfl
      | false => exact Nat.zero_le arpPktSize
    rw [← hs₀] at h
    cases ok with
    | false =>
      cases h
      have hshort : b.capacity ≤ etherHdrSize + etherMtu := by omega
      exact ⟨hharm₀.trans ((Harmless.put s₀ m (Or.inr hshort)).trans (Harmless.freeBuf _ x)),
        fun x hx => by cases hx⟩
    | true =>
      simp only [Bool.not_true, Bool.false_eq_true, if_false, bind_eq_ok] at h
      obtain ⟨⟨e₁, m₁, b₁⟩, hcont, b₂, hstore, heq⟩ := h
      cases heq
      have hsame : b₂.capacity = b.capacity := congrArg Prod.fst
        ((storeData_fixed hstore).trans (setContHeader_fixed hcont).2)
      have hshort : b₂.capacity ≤ etherHdrSize + etherMtu := by omega
      refine ⟨hharm₀.trans (Harmless.put s₀ m₁ (Or.inr hshort)), ?_⟩
      rintro y heq
      cases heq
      rw [Stack.putPkt_self]
      omega

theorem makeArpRequest_harmless (h : EtherNet.makeArpRequest s ip = .ok (e, s')) :
    Harmless s s' := by
  unfold EtherNet.makeArpRequest at h
  simp only [bind_eq_ok] at h
  obtain ⟨⟨o, s₁⟩, hmake, h⟩ := h
  obtain ⟨hharm, hshort⟩ := makeRequest_harmless hmake
  cases o with
  | none =>
    cases h
    exact hharm
  | some x =>
    simp only [bind_eq_ok] at h
    obtain ⟨⟨e₂, s₂⟩, hraw, h⟩ := h
    have hharm₂ := hharm.trans (etherRawOut_short hraw (hshort x rfl))
    split at h
    · cases h
      exact hharm₂.trans (Harmless.freeBuf s₂ x)
    · cases h
      exact hharm₂

/-- With its last reference a packet loses its length. -/
theorem sendSafe_freeBuf : SendSafe (s.freeBuf buf) ↔ ∀ x ∈ s.netif.outQ.items,
    (x = buf ∧ (s.bufs buf).ref = 1) ∨ (s.bufs x).capacity ≤ etherHdrSize + etherMtu := by
  rw [sendSafe_iff]
  refine forall_congr' fun x => imp_congr_right fun _ => ?_
  by_cases hx : x = buf
  · subst hx
    have hself : (s.freeBuf x).bufs x = (PktBuffer.free s.mgr x (s.bufs x)).2 :=
      Stack.putPkt_self ..
    rw [hself, free_capacity]
    by_cases hone : (s.bufs x).ref = 1
    · rw [if_pos hone]
      exact iff_of_true (Nat.zero_le _) (Or.inl ⟨rfl, hone⟩)
    · rw [if_neg hone]
      simp [hone]
  · have hother : (s.freeBuf buf).bufs x = s.bufs x := Stack.putPkt_of_ne _ hx
    rw [hother]
    simp [hx]

/-- Its own packet is freed when it cannot be sent. -/
theorem ownOut_safe_iff (hwords : s.Words) (hsafe : SendSafe s)
    (h : EtherNet.etherRawOut s protocol dest buf = .ok (e, s')) :
    SendSafe (if e.isErr then s'.freeBuf buf else s') ↔
      ¬ Overlong s dest buf ∨ (¬ QueueRoom s.netif dest ∧ (s.bufs buf).ref = 1) := by
  have hmin : etherDataMin = 46 := rfl
  have hmtu : etherMtu = 1500 := rfl
  obtain ⟨hwords', -, hiff⟩ := etherRawOut_safe_iff hwords hsafe h
  by_cases hover : Overlong s dest buf
  · -- the header is there, so only a full queue is an error
    have hle : etherDataMin ≤ (s.bufs buf).capacity := by
      have hlong := hover.1
      omega
    obtain ⟨hothers, -, hcase⟩ := etherRawOut_long h hle
    rw [if_pos hover.2.2.1] at hcase
    obtain ⟨hfixed, herr, hqueue⟩ := hcase
    have href : (s'.bufs buf).ref = (s.bufs buf).ref := congrArg Prod.snd hfixed
    have hnot : ¬ SendSafe s' := fun h' => hiff.mp h' hover
    rw [or_iff_right (not_not.mpr hover), ← herr]
    by_cases hisErr : e.isErr = true
    · rw [if_pos hisErr, sendSafe_freeBuf, href]
      have hrest : ∀ x ∈ s'.netif.outQ.items, x ≠ buf →
          (s'.bufs x).capacity ≤ etherHdrSize + etherMtu := by
        intro x hx hne
        rw [hothers x hne]
        rw [hqueue] at hx
        refine sendSafe_iff.mp hsafe x ?_
        split at hx
        · exact (List.mem_append.mp hx).resolve_right fun hlast =>
            hne (List.mem_singleton.mp hlast)
        · exact hx
      constructor
      · intro hall
        refine ⟨hisErr, ?_⟩
        by_contra hmore
        refine hnot (sendSafe_iff.mpr fun x hx => ?_)
        exact (hall x hx).resolve_left fun hfreed => hmore hfreed.2
      · rintro ⟨-, hone⟩ x hx
        by_cases hxbuf : x = buf
        · exact Or.inl ⟨hxbuf, hone⟩
        · exact Or.inr (hrest x hx hxbuf)
    · rw [if_neg hisErr]
      exact iff_of_false hnot fun hall => hisErr hall.1
  · refine iff_of_true ?_ (Or.inl hover)
    have hsafe' := hiff.mpr hover
    split
    · exact ((Harmless.freeBuf s' buf).keeps hwords').2 hsafe'
    · exact hsafe'

/-- **One call** of `netif_out` on an Ethernet interface. -/
theorem netifOut_safe_iff (htype : s.netif.type = .ether) (hwords : s.Words)
    (hsafe : SendSafe s) (h : netifOut s ip buf = .ok (e, s')) :
    s'.Words ∧ s'.netif.type = s.netif.type ∧ (SendSafe s' ↔ Fits s (.netifOut ip buf)) := by
  obtain ⟨e₁, hlink⟩ : ∃ e₁, EtherNet.linkOut s ip buf = .ok (e₁, s') := by
    unfold netifOut at h
    rw [if_pos (by rw [htype]; decide)] at h
    simp only [bind_eq_ok] at h
    obtain ⟨⟨e₁, s₁⟩, hlink, h⟩ := h
    split at h
    · cases h
      exact ⟨_, hlink⟩
    · cases h
      exact ⟨_, hlink⟩
  unfold EtherNet.linkOut at hlink
  by_cases hown : s.netif.ipaddr = ip
  · rw [if_pos hown] at hlink
    simp only [bind_eq_ok] at hlink
    obtain ⟨⟨e₂, s₂⟩, hraw, hlink⟩ := hlink
    obtain ⟨hwords₂, htype₂, hiff⟩ := etherRawOut_safe_iff hwords hsafe hraw
    have hfits : Fits s (.netifOut ip buf) ↔ ¬ Overlong s etherBroadcastAddr buf ∨
        (¬ QueueRoom s.netif etherBroadcastAddr ∧ (s.bufs buf).ref = 1) := by
      simp [Fits, hown]
    have hsent : s' = if e₂.isErr then s₂.freeBuf buf else s₂ := by
      split at hlink
      · rename_i herr
        cases hlink
        rw [if_pos herr]
      · rename_i herr
        cases hlink
        rw [if_neg herr]
    have hkept : s'.Words ∧ s'.netif.type = s₂.netif.type := by
      rw [hsent]
      split
      · exact ⟨((Harmless.freeBuf s₂ buf).keeps hwords₂).1, (Harmless.freeBuf s₂ buf).type⟩
      · exact ⟨hwords₂, rfl⟩
    rw [hfits, ← ownOut_safe_iff hwords hsafe hraw, ← hsent]
    exact ⟨hkept.1, hkept.2.trans htype₂, Iff.rfl⟩
  · rw [if_neg hown] at hlink
    have hharm := makeArpRequest_harmless hlink
    obtain ⟨hwords', hkeeps⟩ := hharm.keeps hwords
    exact ⟨hwords', hharm.type, iff_of_true (hkeeps hsafe) fun heq => absurd heq hown⟩

/-- Taking a packet from the queue and sending it. -/
theorem sendFunc_harmless {o : Option (List UInt8)} (h : sendFunc s = .ok (o, s')) :
    Harmless s s' := by
  unfold sendFunc Stack.getBufFromOutQueue Fifo.pop at h
  cases hq : s.netif.outQ.items with
  | nil =>
    rw [hq] at h
    simp only [ok_bind] at h
    cases h
    exact Harmless.refl s
  | cons buf queue =>
    rw [hq] at h
    simp only [bind_eq_ok] at h
    obtain ⟨⟨o₁, s₁⟩, ⟨b₀, hreset₀, heq⟩, h⟩ := h
    obtain ⟨s₁, hs₁⟩ : ∃ s₁ : Stack, s₁ = { s.putPkt s.mgr buf b₀ with
        netif := { s.netif with outQ := { s.netif.outQ with items := queue } } } := ⟨_, rfl⟩
    have hcap₀ : b₀.capacity = (s.bufs buf).capacity :=
      congrArg Prod.fst (resetAccess_fixed hreset₀)
    have hput := Harmless.put s s.mgr (Or.inl hcap₀)
    have hharm₁ : Harmless s s₁ := by
      rw [hs₁]
      refine ⟨rfl, hput.length, fun x hx => Or.inl ?_⟩
      rw [hq]
      exact List.mem_cons_of_mem _ hx
    rw [← hs₁] at heq
    cases heq
    simp only [bind_eq_ok] at h
    obtain ⟨b₁, hreset, ⟨e₂, mem, b₂⟩, hread, heq⟩ := h
    cases heq
    have hcap₂ : b₂.capacity = (s₁.bufs buf).capacity :=
      congrArg Prod.fst ((read_fixed hread).trans (resetAccess_fixed hreset))
    exact (hharm₁.trans (Harmless.put s₁ s₁.mgr (Or.inl hcap₂))).trans (Harmless.freeBuf _ buf)

/-! ## Runs -/

/-- An Ethernet interface; the capacities are `uint32_t`. -/
structure SendInv (s : Stack) : Prop where
  type : s.netif.type = .ether
  words : s.Words

/-- **One step** keeps the queue safe exactly if it meets its condition. -/
theorem nextSend_safe_iff (hinv : SendInv s) (hsafe : SendSafe s) {a : SendAct}
    (h : nextSend s a = some s') : SendInv s' ∧ (SendSafe s' ↔ Fits s a) := by
  cases a with
  | rawOut protocol dest buf =>
    simp only [nextSend] at h
    split at h
    · rename_i e t hraw
      cases h
      obtain ⟨hwords, htype, hiff⟩ := etherRawOut_safe_iff hinv.words hsafe hraw
      exact ⟨⟨htype.trans hinv.type, hwords⟩, hiff⟩
    · cases h
  | netifOut ip buf =>
    simp only [nextSend] at h
    split at h
    · rename_i e t hout
      cases h
      obtain ⟨hwords, htype, hiff⟩ := netifOut_safe_iff hinv.type hinv.words hsafe hout
      exact ⟨⟨htype.trans hinv.type, hwords⟩, hiff⟩
    · cases h
  | send =>
    simp only [nextSend] at h
    split at h
    · rename_i o t hsend
      cases h
      have hharm := sendFunc_harmless hsend
      obtain ⟨hwords, hkeeps⟩ := hharm.keeps hinv.words
      exact ⟨⟨hharm.type.trans hinv.type, hwords⟩, iff_of_true (hkeeps hsafe) trivial⟩
    · cases h
  | others t =>
    simp only [nextSend] at h
    split at h
    · rename_i hrely
      cases h
      obtain ⟨htype, hqueue, hbufs⟩ := hrely
      refine ⟨⟨htype.trans hinv.type, t.property⟩, iff_of_true ?_ trivial⟩
      intro x hx
      rw [hqueue] at hx
      rw [hbufs x hx]
      exact hsafe x hx
    · cases h

/-- **The transmit buffer.** In a run of the send path no packet in the out-queue
overruns `rw_buffer`, ever, exactly if no call hands over one that is too long. -/
theorem sendSafe_iff_fits (hinv : SendInv s) (hsafe : SendSafe s) (acts : List SendAct)
    (hrun : run nextSend s acts = some t) :
    Always nextSend SendSafe s acts ↔ Along nextSend Fits s acts :=
  always_iff_along_of_run
    (fun _ _ _ h hp hnext => (nextSend_safe_iff h hp hnext).imp_left fun hinv _ => hinv)
    acts s t hinv hsafe hrun

end Steps

/-- An interface with a packet of `n` bytes at the end of a block of 2048. -/
def longPacket (n : Nat) : Stack where
  mgr := { blkSize := 2048, pktBlk := ⟨2, []⟩, pktBuf := ⟨2, []⟩ }
  bufs _ := {
    capacity := n, pos := 0, curBlk := .at 0, blkOffset := some (2048 - n), ref := 1
    blkList := [some ⟨0, n, 2048 - n, List.replicate 2048 7⟩] }
  netif := quietEther 2
  memBlock := ⟨2, [0, 1]⟩
  msgQueue := ⟨2, []⟩

theorem longPacket_holds {n : Nat} (h1 : 1 ≤ n) (hn : n ≤ 2048) :
    ((longPacket n).bufs 0).Holds 2048 [⟨0, n, 2048 - n, List.replicate 2048 7⟩] := by
  refine ⟨rfl, ?_, rfl, ?_⟩
  · intro blk hblk
    rw [List.mem_singleton.mp hblk]
    refine ⟨h1, ?_, List.length_replicate⟩
    change 2048 - n + n ≤ 2048
    omega
  · rw [sizes_cons, sizes_nil]
    change n + 0 < 2 ^ 32
    omega

/-- A packet is handed over and sent. -/
def sendOne : List SendAct := [.rawOut protocolIPv4 etherBroadcastAddr 0, .send]

theorem sendSafe_iff_fits_mtu : Always nextSend SendSafe (longPacket 1500) sendOne := by
  have hinv : SendInv (longPacket 1500) := ⟨rfl, fun _ => show 1500 < 2 ^ 32 by decide⟩
  have hsafe : SendSafe (longPacket 1500) := fun x hx => by cases hx
  obtain ⟨t, hrun⟩ := Option.isSome_iff_exists.mp
    (show (run nextSend (longPacket 1500) sendOne).isSome = true by decide +kernel)
  exact (sendSafe_iff_fits hinv hsafe sendOne hrun).mpr (by decide +kernel)

/-- With one byte more the packet in the queue has 1515 bytes, and `send_func` writes
behind `rw_buffer`. -/
theorem transmit_overrun :
    ((longPacket 1501).bufs 0).Holds 2048 [⟨0, 1501, 547, List.replicate 2048 7⟩] ∧
      (run nextSend (longPacket 1501) (sendOne.take 1)).map
        (fun t => (t.netif.outQ.items, (t.bufs 0).capacity, (sendFunc t).map Prod.fst)) =
          some ([0], 1515, .error .outOfBounds) ∧
      ¬ Always nextSend SendSafe (longPacket 1501) (sendOne.take 1) := by
  have hend : (run nextSend (longPacket 1501) (sendOne.take 1)).map
      (fun t => (t.netif.outQ.items, (t.bufs 0).capacity, (sendFunc t).map Prod.fst)) =
        some ([0], 1515, .error .outOfBounds) := by decide +kernel
  refine ⟨longPacket_holds (by decide) (by decide), hend, fun hall => ?_⟩
  obtain ⟨t, hrun, ht⟩ := Option.map_eq_some_iff.mp hend
  have hqueue : t.netif.outQ.items = [0] := congrArg Prod.fst ht
  have hcap : (t.bufs 0).capacity = 1515 := congrArg (fun r => r.2.1) ht
  have hfits : FitsBuffer (t.bufs 0) := hall.of_run hrun 0 (by rw [hqueue]; exact List.mem_cons_self)
  have hle := hfits.1
  rw [hcap] at hle
  exact absurd hle (by decide)

end TinyTcp.Net
