/-
TinyTcp.Net.RecvLeak — what the receive path loses.

A buffer is lost in two places: `recv_func` goes on after a failed `alloc`
without releasing it, and `do_netif_in` does nothing with a packet that
`link_in` accepts. `Releases` says of a step that it is neither.
-/
import Mathlib.Tactic.Abel
import TinyTcp.Net.Inventory
import TinyTcp.Pkt.Access
import TinyTcp.Pkt.Keeps

namespace TinyTcp.Net

open TinyTcp.Lib TinyTcp.Pkt PktBuffer

/-! ## What a thread has -/

def FreePc.claims : FreePc → BufClaims
  | .enter buf => {(buf, .parcel)}
  | .blocks buf => {(buf, .boxes)}
  | .clear _ => 0

def RecvPc.claims : RecvPc → BufClaims
  | .alloc buf pktData _ _ => {(buf, .fresh pktData.length)}
  | .undo buf _ _ => {(buf, .lost)}
  | .put buf => {(buf, .parcel)}
  | .free pc => pc.claims
  | _ => 0

def RecvPc.loose : RecvPc → Multiset Nat
  | .alloc _ _ _ blkList => addrs blkList
  | .undo _ _ blkList => addrs blkList
  | _ => 0

def WorkPc.claims : WorkPc → BufClaims
  | .linkIn buf => {(buf, .parcel)}
  | .cont buf _ => {(buf, .parcel)}
  | .check buf => {(buf, .parcel)}
  | .free pc => pc.claims
  | _ => 0

def WorkPc.loose : WorkPc → Multiset Nat
  | .cont _ gone => addrs gone.reduceOption
  | _ => 0

/-- The local variables of `recv_func` are as the loops leave them. -/
def RecvPc.Fits (B : Nat) : RecvPc → Prop
  | .start pktData => pktData.length < 2 ^ 32
  | .alloc _ pktData size blkList => pktData.length < 2 ^ 32 ∧
      (∀ blk ∈ blkList, blk.Ok B) ∧ sizes blkList + size = pktData.length
  | .undo _ _ blkList => ∀ blk ∈ blkList, blk.payload.length = B
  | _ => True

def WorkPc.Fits (B : Nat) : WorkPc → Prop
  | .cont _ gone => ∃ blks : List PktBlock, gone = blks.map some ∧
      ∀ blk ∈ blks, blk.payload.length = B
  | _ => True

/-- A buffer that `recv_func` is about to lose. -/
def RecvPc.losing : RecvPc → Nat
  | .undo .. => 1
  | _ => 0

variable {B : Nat} {live : Finset BufId} {total : Multiset Nat} {s s' : Stack}
  {claims : BufClaims} {loose : Multiset Nat}

/-! ## free -/

/-- A step of `free` on a packet, by either thread. -/
theorem FreePc.step_books (pc : FreePc) (h : Books B live total s (pc.claims + claims) loose) :
    Books B live total (pc.step s).1 ((pc.step s).2.elim 0 FreePc.claims + claims) loose := by
  cases pc with
  | enter buf =>
    rw [FreePc.claims, Multiset.singleton_add] at h
    obtain ⟨blks, hp⟩ := h.meets
    have hzero : (s.bufs buf).ref - 1 = 0 := by rw [hp.ref]; rfl
    have hboxes : Stage.boxes.Meets B { s.bufs buf with ref := (s.bufs buf).ref - 1 } :=
      ⟨blks, hp.list, fun blk hblk => (hp.ok blk hblk).payload⟩
    unfold FreePc.step
    simp only [if_pos hzero]
    exact h.write .boxes hboxes rfl
  | blocks buf =>
    rw [FreePc.claims, Multiset.singleton_add] at h
    obtain ⟨blks, hlist, hpay⟩ := h.meets
    cases blks with
    | nil =>
      have hpush := h.pushBuf hlist
      unfold FreePc.step
      simp only [show (s.bufs buf).blkList = [] from hlist]
      rw [← zero_add claims] at hpush
      exact hpush
    | cons blk rest =>
      have hheld : s.held buf = (addrs (blk :: rest) : Multiset Nat) := World.held_of_list hlist
      rw [List.map_cons] at hlist
      have hboxes : Stage.boxes.Meets B { s.bufs buf with
          blkList := rest.map some, curBlk := (s.bufs buf).curBlk.erased 0 1 } :=
        ⟨rest, rfl, fun blk' hblk' => hpay blk' (List.mem_cons_of_mem _ hblk')⟩
      have hwrite : Books B live total _ _ (blk.addr ::ₘ loose) := h.write .boxes hboxes (by
        rw [hheld, reduceOption_map_some, addrs_cons, ← Multiset.cons_coe, Multiset.add_cons,
          Multiset.cons_add])
      unfold FreePc.step
      simp only [hlist]
      exact hwrite.giveBlk (hpay blk List.mem_cons_self)
  | clear buf =>
    rw [FreePc.claims, zero_add] at h
    have hzero := h.zero buf
    rw [← zero_add claims] at hzero
    exact hzero

/-- The books are in order for a thread that has `has` and `out`, with
`cost` buffers lost since, or about to be. -/
def Kept (B : Nat) (live : Finset BufId) (total : Multiset Nat) (claims : BufClaims)
    (loose : Multiset Nat) (cost : Nat) (s : Stack) (has : BufClaims) (out : Multiset Nat)
    (losing : Nat) : Prop :=
  ∃ lost : BufClaims, Books B live total s (has + (lost + claims)) (out + loose) ∧
    losing + lost.card = cost

/-- Nothing is lost. -/
theorem Kept.of_books {has has' : BufClaims} {out out' : Multiset Nat} (losing : Nat)
    (h : Books B live total s has' out') (hclaims : has + claims = has')
    (hloose : out + loose = out') :
    Kept B live total claims loose losing s has out losing := by
  refine ⟨0, ?_, rfl⟩
  rw [zero_add, hclaims, hloose]
  exact h

/-! ## recv_func -/

/-- The step finds the free list empty: `alloc` fails and the buffer is lost. -/
def RecvPc.loses (s : Stack) : RecvPc → Bool
  | .alloc _ _ (_ + 1) _ => s.mgr.pktBlk.items.isEmpty
  | _ => false

structure RecvPc.Moved (B : Nat) (live : Finset BufId) (total : Multiset Nat) (claims : BufClaims)
    (loose : Multiset Nat) (cost : Nat) (s : Stack) (pc : RecvPc) : Prop where
  kept : Kept B live total claims loose cost s pc.claims pc.loose pc.losing
  fits : pc.Fits B

theorem RecvPc.Moved.of_books (pc : RecvPc) {has : BufClaims} {out : Multiset Nat}
    (h : Books B live total s has out) (hclaims : pc.claims + claims = has)
    (hloose : pc.loose + loose = out) (hfits : pc.Fits B) :
    pc.Moved B live total claims loose pc.losing s :=
  ⟨.of_books pc.losing h hclaims hloose, hfits⟩

/-- A whole packet's `write` into a packet just allocated, also if its
capacity has been set to zero. -/
theorem write_parcel {b : PktBuffer} {blks : List PktBlock} (hp : Parcel B b blks)
    (hreach : b.Reach B blks 0) {src : List UInt8} (hlen : sizes blks = src.length) :
    ∃ e b' blks', b.write (some src) src.length = .ok (e, b') ∧ Parcel B b' blks' ∧
      layout blks' = layout blks := by
  have hlt := hp.lt
  by_cases hzero : src.length = 0
  · refine ⟨.param, b, blks, ?_, hp, rfl⟩
    simp only [write, if_pos hzero]
  · by_cases hremain : src.length ≤ b.totalBlkRemain
    · obtain ⟨b', blks', heq, hreach', hlayout, -, href, hcap⟩ :=
        write_reach hreach (Nat.le_refl _) (Nat.pos_of_ne_zero hzero) hremain (by omega) (by omega)
      refine ⟨.ok, b', blks', heq, ⟨hreach'.list, hreach'.ok, ?_, ?_, href.trans hp.ref⟩, hlayout⟩
      · rw [sizes_of_layout hlayout]
        exact hlt
      · rw [sizes_of_layout hlayout, hcap]
        exact hp.capacity
    · refine ⟨.size, b, blks, ?_, hp, rfl⟩
      simp only [write, if_neg hzero, if_pos (Nat.lt_of_not_le hremain)]

theorem RecvPc.start_books {pktData : List UInt8} (h : Books B live total s claims loose)
    (hlt : pktData.length < 2 ^ 32) :
    ∃ s' pc, RecvPc.step s (.start pktData) = .ok (s', pc) ∧
      pc.Moved B live total claims loose 0 s' := by
  cases hpool : s.mgr.pktBuf.items with
  | nil =>
    refine ⟨s, .idle, ?_, .of_books .idle h (zero_add _) (zero_add _) trivial⟩
    rw [RecvPc.step, s.getPktbuffer_nil hpool]
  | cons buf pool =>
    have hpop := h.popBuf hpool
    have hblank : (s.bufs buf).blkList = [] := hpop.meets
    have hcap : add32 (s.bufs buf).reset.capacity pktData.length = pktData.length := by
      change add32 0 pktData.length = _
      rw [add32, wrapAdd_eq (by omega), Nat.zero_add]
    have hfresh : (Stage.fresh pktData.length).Meets B { (s.bufs buf).reset with
        capacity := add32 (s.bufs buf).reset.capacity pktData.length, ref := 1 } :=
      ⟨hblank, rfl, Or.inl hcap⟩
    have hwrite := hpop.write (.fresh pktData.length) hfresh rfl
    refine ⟨_, .alloc buf pktData pktData.length [], ?_, .of_books (.alloc ..) hwrite
      (Multiset.singleton_add _ _) (zero_add _) ⟨hlt, by simp, Nat.zero_add _⟩⟩
    rw [RecvPc.step, s.getPktbuffer_cons hpool]
    simp only [Stack.putPkt_self, Stack.putPkt_putPkt]
    rfl

/-- `alloc` has all its blocks: they become the packet, and the frame is written. -/
theorem RecvPc.alloc_done_books {buf : BufId} {pktData : List UInt8} {blkList : List PktBlock}
    (h : Books B live total s ((buf, .fresh pktData.length) ::ₘ claims)
      ((addrs blkList : Multiset Nat) + loose))
    (hfits : RecvPc.Fits B (.alloc buf pktData 0 blkList)) :
    ∃ s' pc, RecvPc.step s (.alloc buf pktData 0 blkList) = .ok (s', pc) ∧
      pc.Moved B live total claims loose 0 s' := by
  obtain ⟨hlt, hok, hsizes⟩ := hfits
  obtain ⟨hempty, href, hcap⟩ := h.meets
  obtain ⟨b, hb⟩ : ∃ b, b = { s.bufs buf with blkList := blkList.reverse.map some } := ⟨_, rfl⟩
  have hpush : (blkList.reverse.map some).foldl pushBack (s.bufs buf) = b := by
    rw [foldl_pushBack_list, hempty, List.nil_append, hb]
  have hlist : b.blkList = blkList.reverse.map some := by rw [hb]
  have hlen : sizes blkList.reverse = pktData.length := by rw [sizes_reverse, ← hsizes, Nat.add_zero]
  have hokr : ∀ blk ∈ blkList.reverse, blk.Ok B := fun blk hblk => hok blk (List.mem_reverse.mp hblk)
  -- the cursor is reset twice
  have hlist' : (b.rewound blkList.reverse).blkList = blkList.reverse.map some := hlist
  have hparcel : Parcel B ((b.rewound blkList.reverse).rewound blkList.reverse)
      blkList.reverse := by
    refine ⟨hlist, hokr, by omega, ?_, ?_⟩
    · rw [hlen]
      change b.capacity = _ ∨ b.capacity = 0
      rw [hb]
      exact hcap
    · change b.ref = 1
      rw [hb]
      exact href
  have hreach : ((b.rewound blkList.reverse).rewound blkList.reverse).Reach B
      blkList.reverse 0 := by
    refine ⟨hlist, hokr, ?_, rfl, rewound_at hokr _⟩
    intro blk hblk
    exact Nat.lt_of_le_of_lt (size_le_sizes hblk) hparcel.lt
  obtain ⟨e, b', blks', hwrite, hparcel', hlayout⟩ := write_parcel hparcel hreach hlen
  have hsum : (addrs b'.blkList.reduceOption : Multiset Nat) + loose =
      s.held buf + ((addrs blkList : Multiset Nat) + loose) := by
    have hheld : s.held buf = 0 :=
      World.held_of_list (show (s.bufs buf).blkList = ([] : List PktBlock).map some from hempty)
    have hrev : (addrs blkList.reverse : Multiset Nat) = addrs blkList := by
      rw [addrs, List.map_reverse, Multiset.coe_reverse]
      rfl
    rw [hheld, zero_add, hparcel'.list, reduceOption_map_some, addrs_of_layout hlayout, hrev]
  refine ⟨_, .put buf, ?_, .of_books (.put buf) (h.write .parcel ⟨blks', hparcel'⟩ hsum)
    (Multiset.singleton_add _ _) (zero_add _) trivial⟩
  unfold RecvPc.step
  simp only [hpush, resetAccess_eq hlist, resetAccess_eq hlist', ok_bind, hwrite]

/-- `alloc` asks for a block, and gets it or fails. -/
theorem RecvPc.alloc_books {buf : BufId} {pktData : List UInt8} {size : Nat}
    {blkList : List PktBlock}
    (h : Books B live total s ((buf, .fresh pktData.length) ::ₘ claims)
      ((addrs blkList : Multiset Nat) + loose))
    (hfits : RecvPc.Fits B (.alloc buf pktData (size + 1) blkList)) :
    ∃ s' pc, RecvPc.step s (.alloc buf pktData (size + 1) blkList) = .ok (s', pc) ∧
      pc.Moved B live total claims loose s.mgr.pktBlk.items.isEmpty.toNat s' := by
  obtain ⟨hlt, hok, hsizes⟩ := hfits
  by_cases hnil : s.mgr.pktBlk.items = []
  · have hlost := h.relax .lost trivial
    have hundo : RecvPc.Moved B live total claims loose 1 s (.undo buf pktData.length blkList) :=
      .of_books (.undo ..) hlost (Multiset.singleton_add _ _) rfl
        fun blk hblk => (hok blk hblk).payload
    refine ⟨s, .undo buf pktData.length blkList, ?_, ?_⟩
    · rw [RecvPc.step, Books.noBlk hnil]
      rfl
    · rw [hnil]
      exact hundo
  · obtain ⟨blk, m, hget, hB, hpay, hbooks⟩ := h.takeBlk hnil
    have hpos := h.pos
    have hblkok := cutBlk_ok hpos (Nat.le_add_left 1 size) hpay true
    have hsum := addrs_concat_add blkList (cutBlk B true (size + 1) blk) loose
    have hempty : s.mgr.pktBlk.items.isEmpty.toNat = 0 := by
      cases hitems : s.mgr.pktBlk.items with
      | nil => exact absurd hitems hnil
      | cons ptr rest => rfl
    rw [hempty]
    refine ⟨_, .alloc buf pktData (size + 1 - min (size + 1) B)
      (blkList ++ [cutBlk B true (size + 1) blk]), ?_,
      .of_books (.alloc ..) hbooks (Multiset.singleton_add _ _) hsum ⟨hlt, ?_, ?_⟩⟩
    · rw [RecvPc.step, hget, ← hB]
      rfl
    · intro blk' hin
      rcases List.mem_append.mp hin with hin | hin
      · exact hok blk' hin
      · rw [List.mem_singleton.mp hin]
        exact hblkok
    · rw [sizes_append, sizes_cons, sizes_nil]
      change _ + (min (size + 1) B + 0) + _ = _
      omega

/-- The failed `alloc` gives its blocks back, and then the buffer is lost. -/
theorem RecvPc.undo_books {buf : BufId} {size : Nat} {blkList : List PktBlock}
    (h : Books B live total s ((buf, .lost) ::ₘ claims) ((addrs blkList : Multiset Nat) + loose))
    (hfits : RecvPc.Fits B (.undo buf size blkList)) :
    ∃ s' pc, RecvPc.step s (.undo buf size blkList) = .ok (s', pc) ∧
      pc.Moved B live total claims loose 1 s' := by
  cases blkList with
  | nil =>
    refine ⟨_, .idle, rfl, ⟨⟨{(buf, .lost)}, ?_, rfl⟩, trivial⟩⟩
    rw [addrs_nil, Multiset.coe_nil, zero_add] at h
    simp only [RecvPc.claims, RecvPc.loose, Multiset.singleton_add, zero_add]
    exact h.write .lost trivial rfl
  | cons blk blkList =>
    have hpay : blk.payload.length = B := hfits blk List.mem_cons_self
    rw [addrs_cons, ← Multiset.cons_coe, Multiset.cons_add] at h
    have hgive := h.giveBlk hpay
    refine ⟨_, .undo buf size blkList, rfl, .of_books (.undo ..) hgive
      (Multiset.singleton_add _ _) rfl ?_⟩
    intro blk' hblk'
    exact hfits blk' (List.mem_cons_of_mem _ hblk')

theorem RecvPc.step_put_room (h : s.netif.inQ.items.length < s.netif.inQ.cap) (buf : BufId) :
    ∃ s', RecvPc.step s (.put buf) = .ok (s', .idle) ∧ s'.toWorld = s.toWorld ∧
      s'.netif = { s.netif with
        inQ := { s.netif.inQ with items := s.netif.inQ.items ++ [buf] } } := by
  obtain ⟨s', hput, hworld, hnetif⟩ := Stack.putBufToInQueue_room h buf
  refine ⟨s', ?_, hworld, hnetif⟩
  rw [RecvPc.step, hput]
  rfl

theorem RecvPc.step_put_full (h : ¬ s.netif.inQ.items.length < s.netif.inQ.cap) (buf : BufId) :
    RecvPc.step s (.put buf) = .ok (s, .free (.enter buf)) := by
  rw [RecvPc.step, Stack.putBufToInQueue_full (Nat.le_of_not_lt h)]
  rfl

theorem RecvPc.put_books {buf : BufId} (h : Books B live total s ((buf, .parcel) ::ₘ claims) loose) :
    ∃ s' pc, RecvPc.step s (.put buf) = .ok (s', pc) ∧
      pc.Moved B live total claims loose 0 s' := by
  by_cases hroom : s.netif.inQ.items.length < s.netif.inQ.cap
  · obtain ⟨s', hstep, hworld, hnetif⟩ := RecvPc.step_put_room hroom buf
    exact ⟨s', .idle, hstep, .of_books .idle (h.enqueue hworld (by rw [hnetif])) (zero_add _)
      (zero_add _) trivial⟩
  · exact ⟨s, .free (.enter buf), RecvPc.step_put_full hroom buf, .of_books (.free (.enter buf)) h
      (Multiset.singleton_add _ _) (zero_add _) trivial⟩

/-- A step of `free` for a thread that goes on with `done` afterwards. -/
theorem FreePc.step_eq (s : Stack) (pc : FreePc) :
    (∃ pc', pc.step s = ((pc.step s).1, some pc')) ∨ pc.step s = ((pc.step s).1, none) := by
  cases hnext : (pc.step s).2 with
  | none => exact Or.inr (Prod.ext rfl hnext)
  | some pc' => exact Or.inl ⟨pc', Prod.ext rfl hnext⟩

theorem RecvPc.free_books (pc : FreePc) (h : Books B live total s (pc.claims + claims) loose) :
    ∃ s' pc', RecvPc.step s (.free pc) = .ok (s', pc') ∧
      pc'.Moved B live total claims loose 0 s' := by
  have hstep := pc.step_books h
  rcases pc.step_eq s with ⟨pc', heq⟩ | heq
  · rw [heq] at hstep
    refine ⟨_, .free pc', ?_, .of_books (.free pc') hstep rfl (zero_add _) trivial⟩
    rw [RecvPc.step, heq]
  · rw [heq] at hstep
    refine ⟨_, .idle, ?_, .of_books .idle hstep rfl (zero_add _) trivial⟩
    rw [RecvPc.step, heq]

/-- **recv_func.** Every step is possible and keeps the books. -/
theorem RecvPc.step_books (pc : RecvPc)
    (h : Books B live total s (pc.claims + claims) (pc.loose + loose)) (hfits : pc.Fits B) :
    ∃ s' pc', pc.step s = .ok (s', pc') ∧
      pc'.Moved B live total claims loose (pc.losing + (pc.loses s).toNat) s' := by
  cases pc with
  | idle => exact ⟨s, .idle, rfl, .of_books .idle h rfl rfl trivial⟩
  | start pktData =>
    simp only [RecvPc.claims, RecvPc.loose, zero_add] at h
    exact RecvPc.start_books h hfits
  | alloc buf pktData size blkList =>
    simp only [RecvPc.claims, RecvPc.loose, Multiset.singleton_add] at h
    cases size with
    | zero => exact RecvPc.alloc_done_books h hfits
    | succ size =>
      have hb := RecvPc.alloc_books h hfits
      rw [← Nat.zero_add (s.mgr.pktBlk.items.isEmpty.toNat)] at hb
      exact hb
  | undo buf size blkList =>
    simp only [RecvPc.claims, RecvPc.loose, Multiset.singleton_add] at h
    exact RecvPc.undo_books h hfits
  | put buf =>
    simp only [RecvPc.claims, RecvPc.loose, Multiset.singleton_add, zero_add] at h
    exact RecvPc.put_books h
  | free pc =>
    simp only [RecvPc.claims, RecvPc.loose, zero_add] at h
    exact RecvPc.free_books pc h

/-! ## do_netif_in -/

/-- The step finds that `link_in` accepts the packet: the buffer is lost. -/
def WorkPc.loses (s : Stack) : WorkPc → Bool
  | .check buf => !(isPktOk (s.bufs buf).capacity).isErr
  | _ => false

structure WorkPc.Moved (B : Nat) (live : Finset BufId) (total : Multiset Nat) (claims : BufClaims)
    (loose : Multiset Nat) (cost : Nat) (s : Stack) (pc : WorkPc) : Prop where
  kept : Kept B live total claims loose cost s pc.claims pc.loose 0
  fits : pc.Fits B

theorem WorkPc.Moved.of_books (pc : WorkPc) {has : BufClaims} {out : Multiset Nat}
    (h : Books B live total s has out) (hclaims : pc.claims + claims = has)
    (hloose : pc.loose + loose = out) (hfits : pc.Fits B) :
    pc.Moved B live total claims loose 0 s :=
  ⟨.of_books 0 h hclaims hloose, hfits⟩

/-- Gathering a header moves blocks out of the packet and keeps it a packet. -/
theorem gather_parcel {b : PktBuffer} {blks : List PktBlock} {n : Nat} (hp : Parcel B b blks)
    (hn : 0 < n) :
    ∃ e b' blks' gone, gatherHeader B b n = .ok (e, b', gone.map some) ∧ Parcel B b' blks' ∧
      (∀ blk ∈ gone, blk.payload.length = B) ∧
      (addrs blks' : Multiset Nat) + (addrs gone : Multiset Nat) = addrs blks := by
  by_cases hbig : b.capacity < n ∨ B < n
  · refine ⟨.size, b, blks, [], gatherHeader_tooBig hbig, hp, by simp, ?_⟩
    rw [addrs_nil, Multiset.coe_nil, add_zero]
  · have hcap : b.capacity = sizes blks := by
      rcases hp.capacity with hcap | hcap
      · exact hcap
      · omega
    have hb : b.Holds B blks := ⟨hp.list, hp.ok, hcap, hp.lt⟩
    cases hblks : blks with
    | nil =>
      rw [hblks, sizes_nil] at hcap
      omega
    | cons first rest =>
      rw [hblks] at hb hcap
      by_cases henough : n ≤ first.size
      · refine ⟨.ok, b, first :: rest, [], ?_, hblks ▸ hp, by simp, ?_⟩
        · exact gatherHeader_enough hb.list (by omega) (by omega) henough
        · rw [addrs_nil, Multiset.coe_nil, add_zero]
      · have hshort : first.size < n := Nat.lt_of_not_le henough
        have hgather := gather_holds hb (show n ≤ b.capacity by omega) (by omega) hshort
        rw [sizes_cons] at hcap
        refine ⟨.ok, _, _, _, gatherHeader_gather hb (by omega) (by omega) hshort,
          ⟨hgather.list, hgather.ok, hgather.lt, Or.inl hgather.capacity, hp.ref⟩, ?_, ?_⟩
        · exact gone_payload (n - first.size) fun blk hblk =>
            hb.ok blk (List.mem_cons_of_mem _ hblk)
        · have hcut := cutFront_addrs (n - first.size) rest (by omega)
          rw [emptied_addrs, addrs_cons, addrs_cons, ← hcut, Multiset.coe_add]
          exact Multiset.coe_eq_coe.mpr (List.perm_append_comm.cons first.addr)

theorem WorkPc.get_books (h : Books B live total s claims loose) :
    ∃ s' pc, WorkPc.step s .get = .ok (s', pc) ∧ pc.Moved B live total claims loose 0 s' := by
  cases hqueue : s.netif.inQ.items with
  | nil =>
    refine ⟨s, .idle, ?_, .of_books .idle h (zero_add _) (zero_add _) trivial⟩
    rw [WorkPc.step, Stack.getBufFromInQueue, Fifo.pop, hqueue]
    rfl
  | cons buf queue =>
    have hpop := h.dequeue hqueue
    obtain ⟨blks, hp⟩ := hpop.meets
    have hlist : (s.bufs buf).blkList = blks.map some := hp.list
    have hparcel : Parcel B ((s.bufs buf).rewound blks) blks :=
      ⟨hp.list, hp.ok, hp.lt, hp.capacity, hp.ref⟩
    refine ⟨_, .linkIn buf, ?_, .of_books (.linkIn buf)
      (hpop.write .parcel ⟨blks, hparcel⟩ rfl) (Multiset.singleton_add _ _) (zero_add _) trivial⟩
    rw [WorkPc.step, Stack.getBufFromInQueue, Fifo.pop, hqueue]
    simp only [resetAccess_eq hlist, ok_bind]
    rfl

theorem WorkPc.linkIn_books {buf : BufId}
    (h : Books B live total s ((buf, .parcel) ::ₘ claims) loose) :
    ∃ s' pc, WorkPc.step s (.linkIn buf) = .ok (s', pc) ∧
      pc.Moved B live total claims loose 0 s' := by
  obtain ⟨blks, hp⟩ := h.meets
  obtain ⟨e, b, blks', gone, hgather, hparcel, hpay, haddrs⟩ :=
    gather_parcel hp (show 0 < etherHdrSize by decide)
  have hsum : (addrs b.blkList.reduceOption : Multiset Nat) +
      ((addrs gone : Multiset Nat) + loose) = s.held buf + loose := by
    rw [World.held_of_list hp.list, hparcel.list, reduceOption_map_some, ← haddrs, add_assoc]
  have hloose : (WorkPc.cont buf (gone.map some)).loose + loose =
      (addrs gone : Multiset Nat) + loose := by
    rw [WorkPc.loose, reduceOption_map_some]
  refine ⟨_, .cont buf (gone.map some), ?_, .of_books (.cont ..)
    (h.write .parcel ⟨blks', hparcel⟩ hsum) (Multiset.singleton_add _ _) hloose
    ⟨gone, rfl, hpay⟩⟩
  rw [WorkPc.step, h.blkSize, hgather]
  rfl

/-- `set_cont_header` gives the emptied blocks back. -/
theorem WorkPc.cont_books {buf : BufId} {gone : List BlkPtr}
    (h : Books B live total s ((buf, .parcel) ::ₘ claims)
      ((addrs gone.reduceOption : Multiset Nat) + loose))
    (hfits : WorkPc.Fits B (.cont buf gone)) :
    ∃ s' pc, WorkPc.step s (.cont buf gone) = .ok (s', pc) ∧
      pc.Moved B live total claims loose 0 s' := by
  obtain ⟨blks, rfl, hpay⟩ := hfits
  rw [reduceOption_map_some] at h
  cases blks with
  | nil =>
    rw [addrs_nil, Multiset.coe_nil, zero_add] at h
    exact ⟨s, .check buf, rfl, .of_books (.check buf) h (Multiset.singleton_add _ _)
      (zero_add _) trivial⟩
  | cons blk blks =>
    rw [addrs_cons, ← Multiset.cons_coe, Multiset.cons_add] at h
    have hloose : (WorkPc.cont buf (blks.map some)).loose + loose =
        (addrs blks : Multiset Nat) + loose := by
      rw [WorkPc.loose, reduceOption_map_some]
    refine ⟨_, .cont buf (blks.map some), rfl, .of_books (.cont ..)
      (h.giveBlk (hpay blk List.mem_cons_self)) (Multiset.singleton_add _ _) hloose
      ⟨blks, rfl, ?_⟩⟩
    intro blk' hblk'
    exact hpay blk' (List.mem_cons_of_mem _ hblk')

theorem WorkPc.free_books (pc : FreePc) (h : Books B live total s (pc.claims + claims) loose) :
    ∃ s' pc', WorkPc.step s (.free pc) = .ok (s', pc') ∧
      pc'.Moved B live total claims loose 0 s' := by
  have hstep := pc.step_books h
  rcases pc.step_eq s with ⟨pc', heq⟩ | heq
  · rw [heq] at hstep
    refine ⟨_, .free pc', ?_, .of_books (.free pc') hstep rfl (zero_add _) trivial⟩
    rw [WorkPc.step, heq]
  · rw [heq] at hstep
    refine ⟨_, .loop, ?_, .of_books .loop hstep rfl (zero_add _) trivial⟩
    rw [WorkPc.step, heq]

/-- A packet that is not accepted is released, and one that is accepted is lost. -/
theorem WorkPc.check_books {buf : BufId}
    (h : Books B live total s ((buf, .parcel) ::ₘ claims) loose) :
    (∃ s' pc, WorkPc.step s (.check buf) = .ok (s', pc) ∧ pc.Moved B live total claims loose
      (WorkPc.loses s (.check buf)).toNat s') ∨
      WorkPc.loses s (.check buf) = true ∧ ∃ f, WorkPc.step s (.check buf) = .error f := by
  cases herr : (isPktOk (s.bufs buf).capacity).isErr with
  | true =>
    left
    rw [WorkPc.loses, herr]
    refine ⟨s, .free (.enter buf), ?_, .of_books (.free (.enter buf)) h
      (Multiset.singleton_add _ _) (zero_add _) trivial⟩
    rw [WorkPc.step, if_pos herr]
  | false =>
    rw [WorkPc.loses, WorkPc.step, herr, if_neg Bool.false_ne_true]
    cases loadData (s.bufs buf) protocolOffset 2 with
    | error f => exact Or.inr ⟨rfl, f, rfl⟩
    | ok bytes =>
      left
      have hlost := h.relax .lost trivial
      refine ⟨s, .loop, rfl, ⟨{(buf, .lost)}, ?_, rfl⟩, trivial⟩
      simp only [WorkPc.claims, WorkPc.loose, Multiset.singleton_add, zero_add]
      exact hlost

/-- **do_netif_in.** Every step but that on an accepted packet is possible,
and all steps keep the books. -/
theorem WorkPc.step_books (pc : WorkPc)
    (h : Books B live total s (pc.claims + claims) (pc.loose + loose)) (hfits : pc.Fits B) :
    (∃ s' pc', pc.step s = .ok (s', pc') ∧
      pc'.Moved B live total claims loose (pc.loses s).toNat s') ∨
      pc.loses s = true ∧ ∃ f, pc.step s = .error f := by
  cases pc with
  | idle => exact Or.inl ⟨s, .idle, rfl, .of_books .idle h rfl rfl trivial⟩
  | loop =>
    left
    by_cases hempty : s.netif.inQ.items.length ≠ 0
    · refine ⟨s, .get, ?_, .of_books .get h rfl rfl trivial⟩
      rw [WorkPc.step, if_pos hempty]
    · refine ⟨s, .idle, ?_, .of_books .idle h rfl rfl trivial⟩
      rw [WorkPc.step, if_neg hempty]
  | get =>
    simp only [WorkPc.claims, WorkPc.loose, zero_add] at h
    exact Or.inl (WorkPc.get_books h)
  | linkIn buf =>
    simp only [WorkPc.claims, WorkPc.loose, Multiset.singleton_add, zero_add] at h
    exact Or.inl (WorkPc.linkIn_books h)
  | cont buf gone =>
    simp only [WorkPc.claims, WorkPc.loose, Multiset.singleton_add] at h
    exact Or.inl (WorkPc.cont_books h hfits)
  | check buf =>
    simp only [WorkPc.claims, WorkPc.loose, Multiset.singleton_add, zero_add] at h
    exact WorkPc.check_books h
  | free pc =>
    simp only [WorkPc.claims, WorkPc.loose, zero_add] at h
    exact Or.inl (WorkPc.free_books pc h)

/-! ## Runs -/

namespace RecvPath

def loses (s : RecvPath) : RecvAct → Bool
  | .recv => s.recv.loses s.toStack
  | .work => s.work.loses s.toStack
  | _ => false

/-- The step loses no buffer. -/
def Releases (s : RecvPath) (a : RecvAct) : Prop := s.loses a = false

instance (s : RecvPath) (a : RecvAct) : Decidable (s.Releases a) :=
  inferInstanceAs (Decidable (_ = _))

/-- The books with the claims of both threads, and `n` buffers lost or
about to be. -/
structure Inv (B : Nat) (live : Finset BufId) (total : Multiset Nat) (s : RecvPath)
    (n : Nat) : Prop where
  books : ∃ lost : BufClaims, Books B live total s.toStack
    (s.recv.claims + (s.work.claims + lost)) (s.recv.loose + s.work.loose) ∧
      s.recv.losing + lost.card = n
  recv : s.recv.Fits B
  work : s.work.Fits B

variable {s t s₀ : RecvPath} {n : Nat} {a : RecvAct} {rest : BufClaims}

/-- The same when others have `rest`. -/
structure Shared (B : Nat) (live : Finset BufId) (total : Multiset Nat) (rest : BufClaims)
    (s : RecvPath) (n : Nat) : Prop where
  books : ∃ lost : BufClaims, Books B live total s.toStack
    (rest + (s.recv.claims + (s.work.claims + lost))) (s.recv.loose + s.work.loose) ∧
      s.recv.losing + lost.card = n
  recv : s.recv.Fits B
  work : s.work.Fits B

theorem inv_iff_shared : Inv B live total s n ↔ Shared B live total 0 s n := by
  constructor
  · rintro ⟨⟨lost, hbooks, hn⟩, hrecv, hwork⟩
    refine ⟨⟨lost, ?_, hn⟩, hrecv, hwork⟩
    rw [zero_add (s.recv.claims + _)]
    exact hbooks
  · rintro ⟨⟨lost, hbooks, hn⟩, hrecv, hwork⟩
    rw [zero_add (s.recv.claims + _)] at hbooks
    exact ⟨⟨lost, hbooks, hn⟩, hrecv, hwork⟩

theorem exec_recv_shared (h : Shared B live total rest s n) :
    ∃ t, s.exec .recv = .ok t ∧ Shared B live total rest t (n + (s.loses .recv).toNat) := by
  obtain ⟨⟨lost, hbooks, hn⟩, hrecv, hwork⟩ := h
  rw [add_left_comm] at hbooks
  obtain ⟨stack, pc, hstep, ⟨lost', hbooks', hcost⟩, hfits⟩ := s.recv.step_books hbooks hrecv
  refine ⟨{ s with toStack := stack, recv := pc }, ?_, ⟨lost' + lost, ?_, ?_⟩, hfits, hwork⟩
  · unfold exec
    rw [hstep]
    rfl
  · have hperm : rest + (pc.claims + (s.work.claims + (lost' + lost))) =
        pc.claims + (lost' + (rest + (s.work.claims + lost))) := by abel
    rw [hperm]
    exact hbooks'
  · rw [Multiset.card_add]
    change pc.losing + _ = n + (s.recv.loses s.toStack).toNat
    omega

theorem exec_work_shared (h : Shared B live total rest s n) :
    (∃ t, s.exec .work = .ok t ∧ Shared B live total rest t (n + (s.loses .work).toNat)) ∨
      s.loses .work = true ∧ ∃ f, s.exec .work = .error f := by
  obtain ⟨⟨lost, hbooks, hn⟩, hrecv, hwork⟩ := h
  have hperm : rest + (s.recv.claims + (s.work.claims + lost)) =
      s.work.claims + (rest + (s.recv.claims + lost)) := by abel
  rw [hperm, add_comm s.recv.loose] at hbooks
  rcases s.work.step_books hbooks hwork with
    ⟨stack, pc, hstep, ⟨lost', hbooks', hcost⟩, hfits⟩ | ⟨hloses, f, hfault⟩
  · left
    refine ⟨{ s with toStack := stack, work := pc }, ?_, ⟨lost' + lost, ?_, ?_⟩, hrecv, hfits⟩
    · unfold exec
      rw [hstep]
      rfl
    · have hperm' : rest + (s.recv.claims + (pc.claims + (lost' + lost))) =
          pc.claims + (lost' + (rest + (s.recv.claims + lost))) := by abel
      rw [hperm', add_comm s.recv.loose]
      exact hbooks'
    · rw [Multiset.card_add]
      change s.recv.losing + _ = n + (s.work.loses s.toStack).toNat
      omega
  · right
    refine ⟨hloses, f, ?_⟩
    unfold exec
    rw [hfault]
    rfl

/-- **Step.** A step is possible unless it loses a packet, it loses at most
the one buffer, and what the others have is as before. -/
theorem exec_shared (h : Shared B live total rest s n) (a : RecvAct) :
    (∃ t, s.exec a = .ok t ∧ Shared B live total rest t (n + (s.loses a).toNat)) ∨
      s.loses a = true ∧ ∃ f, s.exec a = .error f := by
  cases a with
  | recv => exact Or.inl (exec_recv_shared h)
  | work => exact exec_work_shared h
  | capture pktData =>
    left
    by_cases hidle : s.recv = .idle ∧ pktData.length < 2 ^ 32
    · obtain ⟨lost, hbooks, hn⟩ := h.books
      rw [hidle.1] at hbooks hn
      refine ⟨{ s with recv := .start pktData }, ?_, ⟨lost, hbooks, hn⟩, hidle.2, h.work⟩
      rw [exec, if_pos hidle]
    · refine ⟨s, ?_, h⟩
      rw [exec, if_neg hidle]
  | netifIn =>
    left
    by_cases hidle : s.work = .idle
    · obtain ⟨lost, hbooks, hn⟩ := h.books
      rw [hidle] at hbooks
      refine ⟨{ s with work := .loop }, ?_, ⟨lost, hbooks, hn⟩, h.recv, trivial⟩
      rw [exec, if_pos hidle]
    · refine ⟨s, ?_, h⟩
      rw [exec, if_neg hidle]

theorem exec_inv (h : Inv B live total s n) (a : RecvAct) :
    (∃ t, s.exec a = .ok t ∧ Inv B live total t (n + (s.loses a).toNat)) ∨
      s.loses a = true ∧ ∃ f, s.exec a = .error f := by
  simp only [inv_iff_shared] at h ⊢
  exact exec_shared h a

/-- Everything is in its pool, no object twice, and nothing has begun. -/
structure Start (s : RecvPath) : Prop where
  sound : s.mgr.Sound
  nodup : s.mgr.pktBuf.items.Nodup
  room : s.mgr.pktBuf.items.length ≤ s.mgr.pktBuf.cap
  blank : ∀ x ∈ s.mgr.pktBuf.items, (s.bufs x).blkList = []
  quiet : s.Quiet

/-- The pools have again what they had. -/
def AllBack (s₀ s : RecvPath) : Prop :=
  s.mgr.pktBuf.items.Perm s₀.mgr.pktBuf.items ∧ (addrs s.free).Perm (addrs s₀.free)

/-- Buffers without blocks. -/
theorem sum_held_zero (h : ∀ x ∈ live, (s.bufs x).blkList = []) : ∑ x ∈ live, s.held x = 0 := by
  refine Finset.sum_eq_zero fun x hx => ?_
  exact World.held_of_list (show (s.bufs x).blkList = ([] : List PktBlock).map some from h x hx)

theorem Start.inv (h : Start s) :
    Inv s.mgr.blkSize ⟨s.mgr.pktBuf.items, h.nodup⟩ (addrs s.free : Multiset Nat) s 0 := by
  obtain ⟨hqueue, hrecv, hwork⟩ := h.quiet
  obtain ⟨free, hpool⟩ := h.sound.pool
  have hfree : s.free = free := World.free_of_pool hpool
  refine ⟨⟨0, ⟨h.sound.blkSize_pos, h.sound.blkSize_lt, rfl, ?_, ?_, ?_, h.room, ⟨?_, ?_⟩⟩, ?_⟩,
    ?_, ?_⟩
  · rw [hfree]
    exact hpool
  · rw [hrecv, hwork, World.blocksIn, sum_held_zero h.blank]
    simp only [RecvPc.loose, WorkPc.loose, add_zero]
  · have hroom := h.sound.room
    rw [hpool.items, List.length_map] at hroom
    rw [Multiset.coe_card, addrs, List.length_map, hfree]
    exact hroom
  · rw [hrecv, hwork, Stack.shelved, hqueue]
    simp only [RecvPc.claims, WorkPc.claims, Multiset.coe_nil, Multiset.map_zero, add_zero,
      Multiset.map_map, Function.comp_def, Multiset.map_id']
  · rw [hrecv, hwork, Stack.shelved, hqueue]
    simp only [RecvPc.claims, WorkPc.claims, Multiset.coe_nil, Multiset.map_zero, add_zero]
    intro c hc
    obtain ⟨x, hx, rfl⟩ := Multiset.mem_map.mp hc
    exact h.blank x hx
  · rw [hrecv]
    rfl
  · rw [hrecv]
    trivial
  · rw [hwork]
    trivial

/-- When nothing is going on, all is back exactly if nothing was lost. -/
theorem allBack_iff_of_quiet (h₀ : Start s₀)
    (h : Inv s₀.mgr.blkSize ⟨s₀.mgr.pktBuf.items, h₀.nodup⟩ (addrs s₀.free : Multiset Nat) s n)
    (hquiet : s.Quiet) : AllBack s₀ s ↔ n = 0 := by
  obtain ⟨hqueue, hrecv, hwork⟩ := hquiet
  obtain ⟨lost, hbooks, hn⟩ := h.books
  rw [hrecv, hwork] at hbooks
  rw [hrecv] at hn
  simp only [RecvPc.claims, WorkPc.claims, RecvPc.loose, WorkPc.loose, zero_add] at hbooks
  have hcells := hbooks.held.cells
  rw [Stack.shelved, hqueue] at hcells
  simp only [Multiset.coe_nil, Multiset.map_zero, add_zero, Multiset.map_add, Multiset.map_map,
    Function.comp_def, Multiset.map_id'] at hcells
  have hcard := congrArg Multiset.card hcells
  simp only [Multiset.card_add, Multiset.coe_card, Multiset.card_map] at hcard
  change 0 + lost.card = n at hn
  constructor
  · rintro ⟨hbufs, -⟩
    have hlen := hbufs.length_eq
    omega
  · intro hzero
    obtain rfl : lost = 0 := Multiset.card_eq_zero.mp (by omega)
    rw [Multiset.map_zero, add_zero] at hcells
    have hbufs : s.mgr.pktBuf.items.Perm s₀.mgr.pktBuf.items := Multiset.coe_eq_coe.mp hcells
    refine ⟨hbufs, ?_⟩
    -- all buffers are in the pool, where they have no blocks
    have hblank : ∀ x ∈ (⟨s₀.mgr.pktBuf.items, h₀.nodup⟩ : Finset BufId),
        (s.bufs x).blkList = [] := by
      intro x hx
      have hclaim : (x, Stage.blank) ∈ s.shelved + 0 := by
        rw [add_zero, Stack.shelved]
        exact Multiset.mem_add.mpr (Or.inl (Multiset.mem_map_of_mem _ (hbufs.mem_iff.mpr hx)))
      exact hbooks.held.met _ hclaim
    have hblocks := hbooks.blocks
    rw [World.blocksIn, sum_held_zero hblank, add_zero, add_zero] at hblocks
    exact Multiset.coe_eq_coe.mp hblocks

/-! ## The result -/

theorem next_inv (h : Inv B live total s n) (hnext : s.next a = some t) :
    ∃ k, Inv B live total t (n + k) ∧ (k = 0 ↔ s.Releases a) := by
  have hexec : s.exec a = .ok t := eq_ok_of_toOption hnext
  rcases exec_inv h a with ⟨t', heq, hinv⟩ | ⟨-, f, heq⟩
  · rw [hexec] at heq
    obtain rfl : t = t' := by simpa using heq
    refine ⟨(s.loses a).toNat, hinv, ?_⟩
    unfold Releases
    cases s.loses a <;> simp
  · rw [hexec] at heq
    cases heq

/-- **The receive path.** After any run from full pools, when nothing waits
and nobody is at work, everything is back exactly if no step found the
free list empty in `recv_func` and no packet passed `is_pkt_ok`. -/
theorem back_iff_releases (h₀ : Start s₀) (acts : List RecvAct)
    (hrun : run next s₀ acts = some s) (hquiet : s.Quiet) :
    AllBack s₀ s ↔ Along next Releases s₀ acts := by
  obtain ⟨k, hinv, hk⟩ := run_count (fun s a t n h hnext => next_inv h hnext) acts s₀ s 0
    h₀.inv hrun
  rw [Nat.zero_add] at hinv
  rw [allBack_iff_of_quiet h₀ hinv hquiet, hk]

/-- No run whose steps all meet the condition ends in a fault. -/
theorem run_of_releases (h₀ : Start s₀) (acts : List RecvAct)
    (halong : Along next Releases s₀ acts) : ∃ s, run next s₀ acts = some s := by
  have hstep : ∀ s a, (∃ n, Inv s₀.mgr.blkSize ⟨s₀.mgr.pktBuf.items, h₀.nodup⟩
      (addrs s₀.free : Multiset Nat) s n) → s.Releases a →
      ∃ t, s.next a = some t ∧ ∃ n, Inv s₀.mgr.blkSize ⟨s₀.mgr.pktBuf.items, h₀.nodup⟩
        (addrs s₀.free : Multiset Nat) t n := by
    rintro s a ⟨n, h⟩ hok
    rcases exec_inv h a with ⟨t, heq, hinv⟩ | ⟨hloses, -⟩
    · refine ⟨t, ?_, _, hinv⟩
      rw [next, heq]
      rfl
    · rw [hok] at hloses
      cases hloses
  obtain ⟨s, hrun, -⟩ := run_progress hstep acts s₀ ⟨0, h₀.inv⟩ halong
  exact ⟨s, hrun⟩

/-- Two blocks of 16 bytes and one buffer, all in their pools. -/
def office : RecvPath where
  mgr := {
    blkSize := 16
    pktBlk := ⟨2, [some ⟨0, 0, 0, List.replicate 16 0⟩, some ⟨1, 0, 0, List.replicate 16 0⟩]⟩
    pktBuf := ⟨1, [0]⟩ }
  bufs _ := PktBuffer.new
  netif := quietEther 1
  memBlock := ⟨1, [0]⟩
  msgQueue := ⟨1, []⟩
  recv := .idle
  work := .idle

theorem office_start : Start office where
  sound := ⟨by decide, by decide, ⟨[⟨0, 0, 0, List.replicate 16 0⟩, ⟨1, 0, 0, List.replicate 16 0⟩],
    rfl, by decide⟩, by decide⟩
  nodup := by decide
  room := by decide
  blank := by decide
  quiet := by decide

/-- A frame arrives and is queued; then `do_netif_in` runs until it finds the queue empty. -/
def deliver (pktData : List UInt8) (recvSteps workSteps : Nat) : List RecvAct :=
  .capture pktData :: List.replicate recvSteps .recv ++ .netifIn :: List.replicate workSteps .work

/-- A frame of three bytes is rejected, and everything comes back. -/
theorem back_short_frame :
    ∃ s, run next office (deliver [1, 2, 3] 4 10) = some s ∧ AllBack office s := by
  have halong : Along next Releases office (deliver [1, 2, 3] 4 10) := by decide +kernel
  obtain ⟨s, hrun⟩ := run_of_releases office_start (deliver [1, 2, 3] 4 10) halong
  have hquiet : s.Quiet := by
    have heq : (run next office (deliver [1, 2, 3] 4 10)).map (fun s => decide s.Quiet) =
        some true := by decide +kernel
    rw [hrun] at heq
    simpa using heq
  exact ⟨s, hrun, (back_iff_releases office_start _ hrun hquiet).mpr halong⟩

/-- A frame of 14 bytes is accepted, and its buffer and its block are gone. -/
theorem lost_after_accepted :
    Start office ∧ ∃ s, run next office (deliver (List.replicate 14 7) 4 6) = some s ∧ s.Quiet ∧
      ¬ AllBack office s := by
  refine ⟨office_start, ?_⟩
  have heq : (run next office (deliver (List.replicate 14 7) 4 6)).map
      (fun s => (decide s.Quiet, s.mgr.pktBuf.items)) = some (true, []) := by decide +kernel
  obtain ⟨s, hrun, hs⟩ := Option.map_eq_some_iff.mp heq
  simp only [Prod.mk.injEq, decide_eq_true_eq] at hs
  refine ⟨s, hrun, hs.1, ?_⟩
  rintro ⟨hbufs, -⟩
  rw [hs.2] at hbufs
  exact absurd hbufs.length_eq (by decide)

end RecvPath

end TinyTcp.Net
