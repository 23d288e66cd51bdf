/-
TinyTcp.Net.Netif — a network interface: `src/net/netif.cc`,
`ARPProcessor::make_request` of `src/net/arp.cc`, and what they call of
`src/net/network.cc` and `src/net/protocol_stack.cc`.

A `Stack` is the packets and pools (`World`), the interface with its two
queues, and the pool and the queue of messages to the working thread. A
queue or a pool is a `Fifo`, so each of its operations is one step; the
timeouts are left out, as the queue ignores them. A packet in a queue is
the address of its buffer.

`m_type` is one of the two kinds an open interface can be; virtual calls
are resolved by it. Left out: opening and closing, names, states, mask,
gateway and `m_mtu`, which nothing here reads, and logging.
-/
import TinyTcp.Net.LinkLayer
import TinyTcp.Pkt.World

namespace TinyTcp.Net

open TinyTcp.Lib TinyTcp.Pkt

/-! ## State -/

inductive NetifType where
  | ether
  | loop
  deriving DecidableEq, Repr

structure INetIF where
  type : NetifType
  hwaddr : HwAddr
  ipaddr : IpAddr
  inQ : Fifo BufId
  outQ : Fifo BufId
  deriving DecidableEq

/-- An Ethernet interface with two empty queues of `n` places. -/
def quietEther (n : Nat) : INetIF where
  type := .ether
  hwaddr := ⟨[1, 2, 3, 4, 5, 6], rfl⟩
  ipaddr := ⟨[10, 0, 0, 1], rfl⟩
  inQ := ⟨n, []⟩
  outQ := ⟨n, []⟩

/-- The address of a message; every message here is `NET_EXMSG_NETIF_IN` for the interface. -/
abbrev MsgId := Nat

structure Stack extends World where
  netif : INetIF
  memBlock : Fifo MsgId
  msgQueue : Fifo MsgId

namespace Stack

variable (s : Stack)

/-- A buffer after a call, with the pools. -/
def putPkt (m : PktManager) (i : BufId) (b : PktBuffer) : Stack :=
  { s with toWorld := s.toWorld.put m i b }

@[simp] theorem putPkt_mgr (m : PktManager) (i : BufId) (b : PktBuffer) :
    (s.putPkt m i b).mgr = m := rfl

@[simp] theorem putPkt_netif (m : PktManager) (i : BufId) (b : PktBuffer) :
    (s.putPkt m i b).netif = s.netif := rfl

@[simp] theorem putPkt_self (m : PktManager) (i : BufId) (b : PktBuffer) :
    (s.putPkt m i b).bufs i = b := World.put_self ..

@[simp] theorem putPkt_of_ne {m : PktManager} {i j : BufId} {b : PktBuffer} (h : j ≠ i) :
    (s.putPkt m i b).bufs j = s.bufs j := World.put_of_ne _ h

/-- The last write counts. -/
theorem putPkt_putPkt (m m' : PktManager) (i : BufId) (b b' : PktBuffer) :
    (s.putPkt m i b).putPkt m' i b' = s.putPkt m' i b' := by
  simp only [putPkt, World.put, Function.update_idem]

/-- `buf->free()` -/
def freeBuf (buf : BufId) : Stack :=
  let (m, b) := PktBuffer.free s.mgr buf (s.bufs buf)
  s.putPkt m buf b

/-- `get_pktbuffer`, with the object it resets. -/
def getPktbuffer : Option BufId × Stack :=
  match s.mgr.pktBuf.pop with
  | none => (none, s)
  | some (ptr, pool) =>
      (some ptr, s.putPkt { s.mgr with pktBuf := pool } ptr (s.bufs ptr).reset)

theorem getPktbuffer_nil (h : s.mgr.pktBuf.items = []) : s.getPktbuffer = (none, s) := by
  unfold getPktbuffer Fifo.pop
  rw [h]

theorem getPktbuffer_cons {ptr : BufId} {pool : List BufId}
    (h : s.mgr.pktBuf.items = ptr :: pool) :
    s.getPktbuffer = (some ptr, s.putPkt
      { s.mgr with pktBuf := { s.mgr.pktBuf with items := pool } } ptr (s.bufs ptr).reset) := by
  unfold getPktbuffer Fifo.pop
  rw [h]

/-! ## Queues -/

/-- `exmsg_netif_in`; `msg_send` does not say that the queue was full. -/
def exmsgNetifIn : NetErr × Stack :=
  match s.memBlock.pop with
  | none => (.mem, s)
  | some (msg, memBlock) =>
      (.ok, { s with memBlock := memBlock, msgQueue := (s.msgQueue.push msg).2 })

def putBufToInQueue (buf : BufId) : NetErr × Stack :=
  match s.netif.inQ.push buf with
  | (true, inQ) =>
      let (_, s) := { s with netif := { s.netif with inQ := inQ } : Stack }.exmsgNetifIn
      (.ok, s)
  | (false, _) => (.full, s)

def putBufToOutQueue (buf : BufId) : NetErr × Stack :=
  match s.netif.outQ.push buf with
  | (true, outQ) => (.ok, { s with netif := { s.netif with outQ := outQ } })
  | (false, _) => (.full, s)

def getBufFromInQueue : Except Fault (Option BufId × Stack) :=
  match s.netif.inQ.pop with
  | none => .ok (none, s)
  | some (buf, inQ) => do
      let b ← (s.bufs buf).resetAccess
      .ok (some buf, { s.putPkt s.mgr buf b with netif := { s.netif with inQ := inQ } })

def getBufFromOutQueue : Except Fault (Option BufId × Stack) :=
  match s.netif.outQ.pop with
  | none => .ok (none, s)
  | some (buf, outQ) => do
      let b ← (s.bufs buf).resetAccess
      .ok (some buf, { s.putPkt s.mgr buf b with netif := { s.netif with outQ := outQ } })

variable {s}

/-- A message changes neither packets nor the interface. -/
theorem exmsgNetifIn_frame : s.exmsgNetifIn.2.toWorld = s.toWorld ∧ s.exmsgNetifIn.2.netif = s.netif := by
  unfold exmsgNetifIn
  cases s.memBlock.pop with
  | none => exact ⟨rfl, rfl⟩
  | some popped => exact ⟨rfl, rfl⟩

theorem putBufToInQueue_room (h : s.netif.inQ.items.length < s.netif.inQ.cap) (buf : BufId) :
    ∃ s', s.putBufToInQueue buf = (.ok, s') ∧ s'.toWorld = s.toWorld ∧
      s'.netif = { s.netif with
        inQ := { s.netif.inQ with items := s.netif.inQ.items ++ [buf] } } := by
  unfold putBufToInQueue
  rw [Fifo.push_of_room h]
  exact ⟨_, rfl, exmsgNetifIn_frame.1, exmsgNetifIn_frame.2⟩

theorem putBufToInQueue_full (h : s.netif.inQ.cap ≤ s.netif.inQ.items.length) (buf : BufId) :
    s.putBufToInQueue buf = (.full, s) := by
  unfold putBufToInQueue
  rw [Fifo.push_of_full h]

theorem putBufToOutQueue_room (h : s.netif.outQ.items.length < s.netif.outQ.cap) (buf : BufId) :
    s.putBufToOutQueue buf = (.ok, { s with netif := { s.netif with
      outQ := { s.netif.outQ with items := s.netif.outQ.items ++ [buf] } } }) := by
  unfold putBufToOutQueue
  rw [Fifo.push_of_room h]

theorem putBufToOutQueue_full (h : s.netif.outQ.cap ≤ s.netif.outQ.items.length) (buf : BufId) :
    s.putBufToOutQueue buf = (.full, s) := by
  unfold putBufToOutQueue
  rw [Fifo.push_of_full h]

end Stack

/-! ## Memory behind `get_data()` -/

/-- The bytes `[off, off + n)` from `get_data()` on. -/
def loadData (b : PktBuffer) (off n : Nat) : Except Fault (List UInt8) := do
  match ← b.getData with
  | none => .error .nullDeref
  | some blk => PktBuffer.load blk.payload (blk.data + off) n

/-- `xs` written from `get_data()` on. -/
def storeData (b : PktBuffer) (xs : List UInt8) : Except Fault PktBuffer :=
  match b.blkList with
  | [] => .error .nullDeref
  | none :: _ => .error .nullDeref
  | some blk :: rest => do
      let payload ← PktBuffer.store blk.payload blk.data xs
      .ok { b with blkList := some { blk with payload := payload } :: rest }

/-! ## EtherNet -/

/-- What `ether_raw_out` does with a payload below `ETHER_DATA_MIN`. -/
def padToMin (m : PktManager) (self : BufId) (b : PktBuffer) :
    Except Fault (NetErr × PktManager × PktBuffer) :=
  let size := b.capacity
  if size < etherDataMin then do
    let (err, m, b) ← PktBuffer.resize m self b etherDataMin
    if err.isErr then .ok (err, m, b)
    else
      let b ← b.resetAccess
      let (_, b) ← b.seek size
      let (_, b) ← b.fill 0x00 (etherDataMin - size)
      .ok (.ok, m, b)
  else .ok (.ok, m, b)

/-- The frame `ether_raw_out` builds in the buffer. -/
def buildFrame (m : PktManager) (self : BufId) (b : PktBuffer) (protocol : UInt16)
    (dest src : HwAddr) : Except Fault (NetErr × PktManager × PktBuffer) := do
  let (err, m, b) ← padToMin m self b
  if err.isErr then .ok (err, m, b)
  else
    let (err, m, b) ← PktBuffer.allocHeader m b etherHdrSize true
    if err.isErr then .ok (err, m, b)
    else
      let b ← storeData b (etherHdr dest src protocol)
      .ok (.ok, m, b)

namespace EtherNet

def send (s : Stack) : NetErr × Stack := (.ok, s)

def etherRawOut (s : Stack) (protocol : UInt16) (dest : HwAddr) (buf : BufId) :
    Except Fault (NetErr × Stack) := do
  let (err, m, b) ← buildFrame s.mgr buf (s.bufs buf) protocol dest s.netif.hwaddr
  let s := s.putPkt m buf b
  if err.isErr then .ok (err, s)
  else if s.netif.hwaddr = dest then .ok (s.putBufToInQueue buf)
  else
    let (err, s) := s.putBufToOutQueue buf
    if err.isErr then .ok (err, s) else .ok (send s)

/-- `ARPProcessor::make_request`; the packet it made, `none` for `nullptr`. -/
def makeRequest (s : Stack) (dest : IpAddr) : Except Fault (Option BufId × Stack) :=
  match s.getPktbuffer with
  | (none, s) => .ok (none, s)
  | (some buf, s) => do
      let (ok, m, b) ← PktBuffer.alloc s.mgr (s.bufs buf) arpPktSize true false
      if !ok then .ok (none, (s.putPkt m buf b).freeBuf buf)
      else
        let (_, m, b) ← PktBuffer.setContHeader m b arpPktSize
        let b ← storeData b (arpPkt s.netif.hwaddr s.netif.ipaddr dest)
        .ok (some buf, s.putPkt m buf b)

def makeArpRequest (s : Stack) (dest : IpAddr) : Except Fault (NetErr × Stack) := do
  match ← makeRequest s dest with
  | (none, s) => .ok (.none, s)
  | (some buf, s) =>
      let (err, s) ← etherRawOut s protocolArp etherBroadcastAddr buf
      if err.isErr then .ok (err, s.freeBuf buf) else .ok (err, s)

def linkOut (s : Stack) (ip : IpAddr) (buf : BufId) : Except Fault (NetErr × Stack) :=
  if s.netif.ipaddr = ip then do
    let (err, s) ← etherRawOut s protocolArp etherBroadcastAddr buf
    if err.isErr then .ok (err, s.freeBuf buf) else .ok (err, s)
  else makeArpRequest s ip

/-- `link_in`, with the decoded protocol the `switch` looks at. -/
def linkIn (m : PktManager) (b : PktBuffer) :
    Except Fault (NetErr × Option UInt16 × PktManager × PktBuffer) := do
  let (_, m, b) ← PktBuffer.setContHeader m b etherHdrSize
  let err := isPktOk b.capacity
  if err.isErr then .ok (err, none, m, b)
  else
    let bytes ← loadData b protocolOffset 2
    .ok (.ok, some (netToHost (ofMem bytes)), m, b)

end EtherNet

/-! ## LoopNet -/

def LoopNet.send (s : Stack) : Except Fault (NetErr × Stack) := do
  match ← s.getBufFromOutQueue with
  | (none, s) => .ok (.ok, s)
  | (some buf, s) =>
      let (err, s) := s.putBufToInQueue buf
      if err.isErr then .ok (err, s.freeBuf buf) else .ok (.ok, s)

/-! ## netif_out -/

def netifOut (s : Stack) (ipaddr : IpAddr) (buf : BufId) : Except Fault (NetErr × Stack) :=
  if s.netif.type ≠ .loop then do
    let (err, s) ← EtherNet.linkOut s ipaddr buf
    if err.isErr then .ok (err, s) else .ok (.ok, s)
  else
    let (err, s) := s.putBufToOutQueue buf
    if err.isErr then .ok (err, s) else LoopNet.send s

/-! ## The two sides of the wire -/

/-- The body of the loop of `recv_func` for one captured frame. -/
def recvFunc (s : Stack) (pktData : List UInt8) : Except Fault Stack :=
  match s.getPktbuffer with
  | (none, s) => .ok s
  | (some buf, s) => do
      let (ok, m, b) ← PktBuffer.alloc s.mgr (s.bufs buf) pktData.length true false
      if !ok then .ok (s.putPkt m buf b)
      else
        let b ← b.resetAccess
        let (_, b) ← b.write (some pktData) pktData.length
        let (err, s) := (s.putPkt m buf b).putBufToInQueue buf
        if err.isErr then .ok (s.freeBuf buf) else .ok s

/-- The body of the loop of `send_func`: the injected bytes, if there was a packet. -/
def sendFunc (s : Stack) : Except Fault (Option (List UInt8) × Stack) := do
  match ← s.getBufFromOutQueue with
  | (none, s) => .ok (none, s)
  | (some buf, s) =>
      let totalSize := (s.bufs buf).capacity
      let b ← (s.bufs buf).resetAccess
      let rwBuffer := List.replicate (etherHdrSize + etherMtu) 0
      let (_, rwBuffer, b) ← b.read (some rwBuffer) totalSize
      .ok (rwBuffer.map (·.take totalSize), (s.putPkt s.mgr buf b).freeBuf buf)

end TinyTcp.Net
