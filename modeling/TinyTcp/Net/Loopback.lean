/-
TinyTcp.Net.Loopback — packets through the loop interface: `netif_out` of
a `LoopNet` and `do_netif_in` of `src/net/net.cc`, call after call.

A packet that is sent goes through the out-queue into the in-queue within
the call: `send` takes whatever is at the front of the out-queue, which is
the packet just put there because every call leaves the out-queue empty.
`do_netif_in` takes packets until it finds none, and `link_in` of a loop
interface does nothing with them.

`Loopback` records the packets that `do_netif_in` took and those for which
`netif_out` reported success. `loopback_delivers` says that over any list
of calls the two agree, with the in-queue between them, and what an error
means. Between the calls anything may happen to the packets and pools.

The queues are the bounded lists that `LockFreeRingQueue` is to calls one
after the other (`Ring.Represents.call`), of one place less than the size
of the ring.
-/
import TinyTcp.Net.Netif
import TinyTcp.Pkt.Blocks
import TinyTcp.Lib.Run
import TinyTcp.Ring.QueueTheorems

namespace TinyTcp.Net

open TinyTcp.Lib TinyTcp.Pkt TinyTcp.Ring PktBuffer

/-! ## The source -/

/-- `netif->link_in(buf)`; a loop interface has the one of the base class. -/
def linkIn (s : Stack) (buf : BufId) : Except Fault (NetErr × Stack) :=
  match s.netif.type with
  | .loop => .ok (.ok, s)
  | .ether => do
      let (err, _, m, b) ← EtherNet.linkIn s.mgr (s.bufs buf)
      .ok (err, s.putPkt m buf b)

/-- The loop of `do_netif_in`, with the packets it took, in order. -/
def netifInLoop : Nat → Stack → Except Fault (NetErr × List BufId × Stack)
  | 0, _ => .error .endless
  | fuel + 1, s =>
      if s.netif.inQ.items.length ≠ 0 then do
        match ← s.getBufFromInQueue with
        | (none, s) => .ok (.mem, [], s)
        | (some buf, s) =>
            let (err, s) ← linkIn s buf
            let s := if err.isErr then s.freeBuf buf else s
            let (err, taken, s) ← netifInLoop fuel s
            .ok (err, buf :: taken, s)
      else .ok (.ok, [], s)

def doNetifIn (s : Stack) : Except Fault (NetErr × List BufId × Stack) :=
  netifInLoop (s.netif.inQ.items.length + 1) s

/-! ## Calls one after the other -/

/-- No list of blocks has a null pointer in it. -/
def CleanBufs (w : World) : Prop := ∀ x, none ∉ (w.bufs x).blkList

/-- A call on the interface, or what its users do with packets and pools in between. -/
inductive LoopCall where
  | netifOut (ip : IpAddr) (buf : BufId)
  | doNetifIn
  | elsewhere (w : { w : World // CleanBufs w }) (memBlock msgQueue : Fifo MsgId)

/-- The packets `do_netif_in` took, and those for which `netif_out` reported success. -/
structure Loopback where
  stack : Stack
  taken : List BufId
  accepted : List BufId

namespace Loopback

def exec (l : Loopback) : LoopCall → Except Fault Loopback
  | .netifOut ip buf => do
      let (err, s) ← netifOut l.stack ip buf
      .ok { l with stack := s, accepted := if err.isErr then l.accepted else l.accepted ++ [buf] }
  | .doNetifIn => do
      let (_, taken, s) ← doNetifIn l.stack
      .ok { l with stack := s, taken := l.taken ++ taken }
  | .elsewhere w memBlock msgQueue =>
      .ok { l with stack :=
        { l.stack with toWorld := w.val, memBlock := memBlock, msgQueue := msgQueue } }

/-- A fault ends the run. -/
def step (l : Loopback) (c : LoopCall) : Option Loopback := (l.exec c).toOption

end Loopback

/-! ## send -/

section Send

variable {s : Stack} {x : BufId} {queue : List BufId}

/-- A list without null pointers is a list of blocks. -/
theorem exists_blocks {ptrs : List BlkPtr} (h : none ∉ ptrs) :
    ∃ blks : List PktBlock, ptrs = blks.map some := by
  induction ptrs with
  | nil => exact ⟨[], rfl⟩
  | cons ptr ptrs ih =>
    obtain ⟨blks, rfl⟩ := ih fun hmem => h (List.mem_cons_of_mem ptr hmem)
    cases ptr with
    | none => exact absurd List.mem_cons_self h
    | some blk => exact ⟨blk :: blks, rfl⟩

/-- The packet `x` with its blocks `blks` is out of the out-queue. -/
def Stack.fetched (s : Stack) (x : BufId) (blks : List PktBlock) (queue : List BufId) : Stack :=
  { s.putPkt s.mgr x ((s.bufs x).rewound blks) with
    netif := { s.netif with outQ := { s.netif.outQ with items := queue } } }

/-- `send` takes the packet at the front of the out-queue and puts it into the in-queue. -/
theorem loopSend_room {blks : List PktBlock} (hq : s.netif.outQ.items = x :: queue)
    (hlist : (s.bufs x).blkList = blks.map some)
    (hroom : s.netif.inQ.items.length < s.netif.inQ.cap) :
    ∃ s' : Stack, LoopNet.send s = .ok (.ok, s') ∧
      s'.toWorld = (s.fetched x blks queue).toWorld ∧
      s'.netif = { (s.fetched x blks queue).netif with
        inQ := { s.netif.inQ with items := s.netif.inQ.items ++ [x] } } := by
  obtain ⟨s', hput, hworld, hnetif⟩ :=
    Stack.putBufToInQueue_room (s := s.fetched x blks queue) hroom x
  refine ⟨s', ?_, hworld, hnetif⟩
  rw [Stack.fetched] at hput
  unfold LoopNet.send Stack.getBufFromOutQueue
  simp only [Fifo.pop, hq, resetAccess_eq hlist, ok_bind, hput]
  rfl

/-- Without room there it releases it. -/
theorem loopSend_full {blks : List PktBlock} (hq : s.netif.outQ.items = x :: queue)
    (hlist : (s.bufs x).blkList = blks.map some)
    (hfull : s.netif.inQ.cap ≤ s.netif.inQ.items.length) :
    LoopNet.send s = .ok (.full, (s.fetched x blks queue).freeBuf x) := by
  have hput := Stack.putBufToInQueue_full (s := s.fetched x blks queue) hfull x
  rw [Stack.fetched] at hput
  unfold LoopNet.send Stack.getBufFromOutQueue
  simp only [Fifo.pop, hq, resetAccess_eq hlist, ok_bind, hput]
  rfl

end Send

/-! ## One call -/

/-- The places of a ring queue, one less than its size, for a requested size it can meet. -/
def RingCap (n : Nat) : Prop :=
  ∃ size, IsPowTwo (queueSize size) ∧ n = (queueSize size).toNat - 1

theorem RingCap.pos {n : Nat} (h : RingCap n) : 0 < n := by
  obtain ⟨size, hpow, rfl⟩ := h
  have htwo := hpow.two_le
  omega

/-- A loop interface between two calls. -/
structure LoopReady (s : Stack) : Prop where
  type : s.netif.type = .loop
  inCap : RingCap s.netif.inQ.cap
  outCap : RingCap s.netif.outQ.cap
  bounded : s.netif.inQ.items.length ≤ s.netif.inQ.cap
  outEmpty : s.netif.outQ.items = []
  clean : CleanBufs s.toWorld

section Call

variable {s : Stack}

theorem CleanBufs.put {w : World} (h : CleanBufs w) (m : PktManager) {x : BufId} {b : PktBuffer}
    (hb : none ∉ b.blkList) : CleanBufs (w.put m x b) := by
  intro y
  by_cases hy : y = x
  · rw [hy, World.put_self]
    exact hb
  · rw [World.put_of_ne _ hy]
    exact h y

/-- `free` counts one reference less, and at most empties the list. -/
theorem free_ref (m : PktManager) (self : BufId) (b : PktBuffer) :
    (PktBuffer.free m self b).2.ref = b.ref - 1 := by
  unfold PktBuffer.free
  by_cases hzero : b.ref - 1 = 0
  · simp only [if_pos hzero]
  · simp only [if_neg hzero]

theorem freeBuf_ref (s : Stack) (x y : BufId) :
    ((s.freeBuf x).bufs y).ref = if y = x then (s.bufs y).ref - 1 else (s.bufs y).ref := by
  by_cases hy : y = x
  · rw [if_pos hy, hy]
    change ((s.putPkt _ x (PktBuffer.free s.mgr x (s.bufs x)).2).bufs x).ref = _
    rw [Stack.putPkt_self, free_ref]
  · rw [if_neg hy]
    change ((s.putPkt _ x (PktBuffer.free s.mgr x (s.bufs x)).2).bufs y).ref = _
    rw [Stack.putPkt_of_ne _ hy]

theorem CleanBufs.freeBuf {s : Stack} (h : CleanBufs s.toWorld) (x : BufId) :
    CleanBufs (s.freeBuf x).toWorld := by
  refine h.put (PktBuffer.free s.mgr x (s.bufs x)).1 (b := (PktBuffer.free s.mgr x (s.bufs x)).2) ?_
  have hx := h x
  unfold PktBuffer.free
  by_cases hzero : (s.bufs x).ref - 1 = 0
  · simp [hzero]
  · simpa only [if_neg hzero] using hx

/-- The packet sent is the one at the front of the out-queue. -/
theorem netifOut_loop (h : LoopReady s) (ip : IpAddr) (buf : BufId) :
    netifOut s ip buf = LoopNet.send { s with netif := { s.netif with
      outQ := { s.netif.outQ with items := [buf] } } } := by
  have hput := Stack.putBufToOutQueue_room (s := s)
    (by rw [h.outEmpty]; exact h.outCap.pos) buf
  rw [h.outEmpty, List.nil_append] at hput
  unfold netifOut
  rw [if_neg (by rw [h.type]; exact fun hne => hne rfl), hput]
  rfl

/-- With room in the in-queue, the packet ends up at its end. -/
theorem netifOut_room (h : LoopReady s) (ip : IpAddr) (buf : BufId)
    (hroom : s.netif.inQ.items.length < s.netif.inQ.cap) :
    ∃ s', netifOut s ip buf = .ok (.ok, s') ∧ LoopReady s' ∧
      s'.netif.inQ.items = s.netif.inQ.items ++ [buf] := by
  obtain ⟨blks, hlist⟩ := exists_blocks (h.clean buf)
  obtain ⟨s', hsend, hworld, hnetif⟩ := loopSend_room (s := { s with netif := { s.netif with
    outQ := { s.netif.outQ with items := [buf] } } }) rfl hlist hroom
  refine ⟨s', (netifOut_loop h ip buf).trans hsend, ⟨?_, ?_, ?_, ?_, ?_, ?_⟩, ?_⟩
  · rw [hnetif]
    exact h.type
  · rw [hnetif]
    exact h.inCap
  · rw [hnetif]
    exact h.outCap
  · rw [hnetif]
    simp only [List.length_append, List.length_singleton]
    exact hroom
  · rw [hnetif]
    rfl
  · rw [hworld]
    exact h.clean.put s.mgr (h.clean buf)
  · rw [hnetif]

/-- Without, it is that packet that loses a reference, and nothing else happens. -/
theorem netifOut_full (h : LoopReady s) (ip : IpAddr) (buf : BufId)
    (hfull : s.netif.inQ.cap ≤ s.netif.inQ.items.length) :
    ∃ s', netifOut s ip buf = .ok (.full, s') ∧ LoopReady s' ∧ s'.netif = s.netif ∧
      ∀ x, (s'.bufs x).ref = if x = buf then (s.bufs x).ref - 1 else (s.bufs x).ref := by
  obtain ⟨blks, hlist⟩ := exists_blocks (h.clean buf)
  have hsend := loopSend_full (s := { s with netif := { s.netif with
    outQ := { s.netif.outQ with items := [buf] } } }) rfl hlist hfull
  have hnetif : { s.netif with outQ := { s.netif.outQ with items := [] } } = s.netif := by
    rw [← h.outEmpty]
  have hclean : CleanBufs (s.putPkt s.mgr buf ((s.bufs buf).rewound blks)).toWorld :=
    h.clean.put s.mgr (h.clean buf)
  refine ⟨_, (netifOut_loop h ip buf).trans hsend,
    ⟨h.type, h.inCap, h.outCap, h.bounded, rfl, ?_⟩, hnetif, fun x => ?_⟩
  · exact CleanBufs.freeBuf hclean buf
  · rw [freeBuf_ref]
    by_cases hx : x = buf
    · rw [if_pos hx, if_pos hx, hx]
      change ((s.putPkt s.mgr buf _).bufs buf).ref - 1 = _
      rw [Stack.putPkt_self]
      rfl
    · rw [if_neg hx, if_neg hx]
      change ((s.putPkt s.mgr buf _).bufs x).ref = _
      rw [Stack.putPkt_of_ne _ hx]

/-- The packets of the in-queue are taken one after the other. -/
theorem netifInLoop_ok (h : LoopReady s) (fuel : Nat) (hfuel : s.netif.inQ.items.length < fuel) :
    ∃ s', netifInLoop fuel s = .ok (.ok, s.netif.inQ.items, s') ∧ LoopReady s' ∧
      s'.netif.inQ.items = [] := by
  induction fuel generalizing s with
  | zero => exact absurd hfuel (Nat.not_lt_zero _)
  | succ fuel ih =>
    rw [netifInLoop]
    cases hitems : s.netif.inQ.items with
    | nil => exact ⟨s, by rw [List.length_nil, if_neg (by decide)], h, hitems⟩
    | cons x rest =>
      rw [hitems, List.length_cons] at hfuel
      obtain ⟨blks, hlist⟩ := exists_blocks (h.clean x)
      obtain ⟨s₁, hs₁⟩ : ∃ s₁ : Stack, s₁ = { s.putPkt s.mgr x ((s.bufs x).rewound blks) with
          netif := { s.netif with inQ := { s.netif.inQ with items := rest } } } := ⟨_, rfl⟩
      have hget : s.getBufFromInQueue = .ok (some x, s₁) := by
        unfold Stack.getBufFromInQueue
        simp only [Fifo.pop, hitems, resetAccess_eq hlist, ok_bind, hs₁]
      have hin : s₁.netif.inQ.items = rest := by rw [hs₁]
      have htype : s₁.netif.type = .loop := by
        rw [hs₁]
        exact h.type
      have hready : LoopReady s₁ := by
        have hbounded := h.bounded
        rw [hitems, List.length_cons] at hbounded
        rw [hs₁]
        exact ⟨h.type, h.inCap, h.outCap, Nat.le_of_succ_le hbounded, h.outEmpty,
          h.clean.put s.mgr (h.clean x)⟩
      obtain ⟨s', hloop, hready', hempty⟩ := ih hready (by rw [hin]; omega)
      rw [hin] at hloop
      refine ⟨s', ?_, hready', hempty⟩
      have hlink : linkIn s₁ x = .ok (.ok, s₁) := by rw [linkIn, htype]
      rw [List.length_cons, if_pos (Nat.succ_ne_zero _)]
      simp only [hget, ok_bind, hlink]
      have hok : NetErr.ok.isErr = false := rfl
      rw [hok, if_neg Bool.false_ne_true, hloop]
      rfl

end Call

/-! ## Runs -/

namespace Loopback

/-- Nothing is in the out-queue, and the packets that were taken, with those that wait,
are the ones that waited at first and then the accepted ones, in order. -/
def Delivered (waiting : List BufId) (l : Loopback) : Prop :=
  l.stack.netif.outQ.items = [] ∧ l.taken ++ l.stack.netif.inQ.items = waiting ++ l.accepted

/-- `netif_out` reports an error exactly if the in-queue is full, and then that packet
has lost one reference, and the in-queue is as before. `do_netif_in` takes what waits in the
in-queue, in order, and leaves it empty. -/
def Answers (l : Loopback) : LoopCall → Prop
  | .netifOut ip buf =>
      ∃ e s', netifOut l.stack ip buf = .ok (e, s') ∧
        (e.isErr = true ↔ l.stack.netif.inQ.items.length = l.stack.netif.inQ.cap) ∧
        (e.isErr = true → s'.netif.inQ = l.stack.netif.inQ ∧
          ∀ x, (s'.bufs x).ref =
            if x = buf then (l.stack.bufs x).ref - 1 else (l.stack.bufs x).ref)
  | .doNetifIn =>
      ∃ s', doNetifIn l.stack = .ok (.ok, l.stack.netif.inQ.items, s') ∧ s'.netif.inQ.items = []
  | .elsewhere .. => True

/-- What holds between the calls. -/
structure Inv (waiting : List BufId) (l : Loopback) : Prop where
  ready : LoopReady l.stack
  delivered : Delivered waiting l

variable {waiting : List BufId} {l : Loopback}

theorem Inv.answers (h : Inv waiting l) (c : LoopCall) : Answers l c := by
  cases c with
  | netifOut ip buf =>
    by_cases hfull : l.stack.netif.inQ.cap ≤ l.stack.netif.inQ.items.length
    · obtain ⟨s', hcall, -, hnetif, href⟩ := netifOut_full h.ready ip buf hfull
      have hlen := Nat.le_antisymm h.ready.bounded hfull
      exact ⟨.full, s', hcall, iff_of_true rfl hlen, fun _ => ⟨by rw [hnetif], href⟩⟩
    · have hroom := Nat.lt_of_not_le hfull
      obtain ⟨s', hcall, -, -⟩ := netifOut_room h.ready ip buf hroom
      exact ⟨.ok, s', hcall, iff_of_false (by decide) (Nat.ne_of_lt hroom),
        fun herr => absurd herr (by decide)⟩
  | doNetifIn =>
    obtain ⟨s', hcall, -, hempty⟩ :=
      netifInLoop_ok h.ready (l.stack.netif.inQ.items.length + 1) (Nat.lt_succ_self _)
    exact ⟨s', hcall, hempty⟩
  | elsewhere w memBlock msgQueue => trivial

/-- Every call returns, and keeps what holds between the calls. -/
theorem Inv.step (h : Inv waiting l) (c : LoopCall) :
    ∃ l', Loopback.step l c = some l' ∧ Inv waiting l' := by
  obtain ⟨hout, hqueue⟩ := h.delivered
  cases c with
  | netifOut ip buf =>
    by_cases hfull : l.stack.netif.inQ.cap ≤ l.stack.netif.inQ.items.length
    · obtain ⟨s', hcall, hready, hnetif, -⟩ := netifOut_full h.ready ip buf hfull
      refine ⟨{ l with stack := s' }, ?_, hready, hready.outEmpty, ?_⟩
      · simp only [Loopback.step, exec, hcall, ok_bind]
        rfl
      · change l.taken ++ s'.netif.inQ.items = _
        rw [hnetif, hqueue]
    · obtain ⟨s', hcall, hready, hin⟩ :=
        netifOut_room h.ready ip buf (Nat.lt_of_not_le hfull)
      refine ⟨{ l with stack := s', accepted := l.accepted ++ [buf] }, ?_, hready,
        hready.outEmpty, ?_⟩
      · simp only [Loopback.step, exec, hcall, ok_bind]
        rfl
      · change l.taken ++ s'.netif.inQ.items = waiting ++ (l.accepted ++ [buf])
        rw [hin, ← List.append_assoc, hqueue, List.append_assoc]
  | doNetifIn =>
    obtain ⟨s', hcall, hready, hempty⟩ :=
      netifInLoop_ok h.ready (l.stack.netif.inQ.items.length + 1) (Nat.lt_succ_self _)
    refine ⟨{ l with stack := s', taken := l.taken ++ l.stack.netif.inQ.items }, ?_, hready,
      hready.outEmpty, ?_⟩
    · simp only [Loopback.step, exec, doNetifIn, hcall, ok_bind]
      rfl
    · change l.taken ++ l.stack.netif.inQ.items ++ s'.netif.inQ.items = _
      rw [hempty, List.append_nil, hqueue]
  | elsewhere w memBlock msgQueue =>
    have hr := h.ready
    exact ⟨_, rfl, ⟨hr.type, hr.inCap, hr.outCap, hr.bounded, hr.outEmpty, w.property⟩,
      hout, hqueue⟩

/-- **Loopback delivers in order and loses nothing silently**: every list of calls goes
through, with each call answered as it should be and the queues accounted for after it. -/
theorem loopback_delivers {s : Stack} (h : LoopReady s) (calls : List LoopCall) :
    ∃ l, run Loopback.step ⟨s, [], []⟩ calls = some l ∧
      Always Loopback.step (Delivered s.netif.inQ.items) ⟨s, [], []⟩ calls ∧
      Along Loopback.step Answers ⟨s, [], []⟩ calls := by
  have hinit : Inv s.netif.inQ.items ⟨s, [], []⟩ := ⟨h, h.outEmpty, by simp⟩
  have hkeep : ∀ (l : Loopback) c l', Inv s.netif.inQ.items l → Loopback.step l c = some l' →
      Inv s.netif.inQ.items l' := by
    intro l c l' hl hstep
    obtain ⟨l'', heq, hl''⟩ := hl.step c
    rw [hstep, Option.some.injEq] at heq
    rwa [heq]
  have hfree : Along Loopback.step (fun _ _ => True) ⟨s, [], []⟩ calls :=
    along_of_forall (fun _ _ => trivial) _
  obtain ⟨l, hrun, -⟩ := run_progress (fun l c hl _ => hl.step c) calls _ hinit hfree
  exact ⟨l, hrun, always_of_along (fun _ hl => hl.delivered) (fun l c l' hl _ => hkeep l c l' hl)
    calls _ hinit hfree, along_of_inv (fun _ c hl => hl.answers c) hkeep calls _ hinit⟩

/-- A loop interface with queues of one place. -/
def quietLoop : Stack where
  mgr := { blkSize := 8, pktBlk := ⟨1, []⟩, pktBuf := ⟨2, []⟩ }
  bufs := fun _ => PktBuffer.new
  netif := { quietEther 1 with type := .loop }
  memBlock := ⟨1, []⟩
  msgQueue := ⟨1, []⟩

/-- Two packets are sent, and the in-queue is drained. -/
def twoSent : List LoopCall :=
  [.netifOut (quietEther 1).ipaddr 0, .netifOut (quietEther 1).ipaddr 1, .doNetifIn]

/-- The second of the two packets finds the in-queue full. -/
theorem loopback_delivers_one_place :
    ∃ l, run Loopback.step ⟨quietLoop, [], []⟩ twoSent = some l ∧
      Always Loopback.step (Delivered []) ⟨quietLoop, [], []⟩ twoSent ∧
      Along Loopback.step Answers ⟨quietLoop, [], []⟩ twoSent := by
  have hcap : RingCap 1 := ⟨2, ⟨1, by decide, by decide, by decide⟩, by decide⟩
  have hready : LoopReady quietLoop :=
    ⟨rfl, hcap, hcap, by decide, rfl, fun _ => List.not_mem_nil⟩
  exact loopback_delivers hready twoSent

end Loopback

end TinyTcp.Net
