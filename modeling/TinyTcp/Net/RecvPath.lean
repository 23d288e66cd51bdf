/-
TinyTcp.Net.RecvPath — the receive path with its two threads in parallel:
`PcapNetWork::recv_func` of `src/net/network.cc` and
`ProtocolStack::do_netif_in` of `src/net/net.cc`.

Here each operation of a pool or of the in-queue is a step, so `alloc`,
`free` and `set_cont_header` take many of them, and the threads interleave
as the schedule says. `RecvPc`, `WorkPc` and `FreePc` say what a thread
does next, with its local variables. What it does between two such
operations concerns memory that it alone holds, and is part of a step.

The exception is the last statement of `free`: `m_capacity` is set to zero
after the buffer has gone back to its pool, and may be set in a buffer
that has a new owner. It is a step of its own.

`do_netif_in` runs may start at any time; the messages that start them are
not looked at.
-/
import TinyTcp.Net.Netif
import TinyTcp.Pkt.ContHeader

namespace TinyTcp.Net

open TinyTcp.Lib TinyTcp.Pkt

/-- The pools after an operation. -/
def Stack.putMgr (s : Stack) (m : PktManager) : Stack := { s with mgr := m }

/-! ## free -/

/-- What is left to do of a call `buf->free()`. -/
inductive FreePc where
  | enter (buf : BufId)
  | blocks (buf : BufId)
  | clear (buf : BufId)
  deriving DecidableEq, Repr

/-- The next step, and what is left to do after it. -/
def FreePc.step (s : Stack) : FreePc → Stack × Option FreePc
  | .enter buf =>
      let b := { s.bufs buf with ref := (s.bufs buf).ref - 1 }
      (s.putPkt s.mgr buf b, if b.ref = 0 then some (.blocks buf) else none)
  | .blocks buf =>
      let b := s.bufs buf
      match b.blkList with
      | [] => (s.putMgr (s.mgr.releasePktbuffer buf), some (.clear buf))
      | ptr :: rest =>
          (s.putPkt (s.mgr.releasePktblock ptr) buf
            { b with blkList := rest, curBlk := b.curBlk.erased 0 1 }, some (.blocks buf))
  | .clear buf => (s.putPkt s.mgr buf { s.bufs buf with capacity := 0 }, none)

/-! ## recv_func -/

/-- What an iteration of `recv_func` does next. In `alloc` the loop still
has `size` bytes to get and has got `blkList`; in `undo` it failed and
gives `blkList` back. -/
inductive RecvPc where
  | idle
  | start (pktData : List UInt8)
  | alloc (buf : BufId) (pktData : List UInt8) (size : Nat) (blkList : List PktBlock)
  | undo (buf : BufId) (size : Nat) (blkList : List PktBlock)
  | put (buf : BufId)
  | free (pc : FreePc)
  deriving DecidableEq, Repr

def RecvPc.step (s : Stack) : RecvPc → Except Fault (Stack × RecvPc)
  | .idle => .ok (s, .idle)
  | .start pktData =>
      match s.getPktbuffer with
      | (none, s) => .ok (s, .idle)
      | (some buf, s) =>
          let b := { s.bufs buf with
            capacity := add32 (s.bufs buf).capacity pktData.length, ref := 1 }
          .ok (s.putPkt s.mgr buf b, .alloc buf pktData pktData.length [])
  | .alloc buf pktData 0 blkList => do
      let b := (blkList.reverse.map some).foldl PktBuffer.pushBack (s.bufs buf)
      let b ← b.resetAccess
      let b ← b.resetAccess
      let (_, b) ← b.write (some pktData) pktData.length
      .ok (s.putPkt s.mgr buf b, .put buf)
  | .alloc buf pktData (size + 1) blkList => do
      let (ptr, m) ← s.mgr.getPktblock
      match ptr with
      | none => .ok (s.putMgr m, .undo buf pktData.length blkList)
      | some blk =>
          let curSize := min (size + 1) m.blkSize
          let blk := { blk with size := curSize, data := m.blkSize - curSize }
          .ok (s.putMgr m, .alloc buf pktData (size + 1 - curSize) (blkList ++ [blk]))
  -- `continue`, with the buffer still out of the pool
  | .undo buf size [] =>
      let b := { s.bufs buf with capacity := sub32 (s.bufs buf).capacity size }
      .ok (s.putPkt s.mgr buf b, .idle)
  | .undo buf size (blk :: blkList) =>
      .ok (s.putMgr (s.mgr.releasePktblock (some blk)), .undo buf size blkList)
  | .put buf =>
      let (err, s) := s.putBufToInQueue buf
      if err.isErr then .ok (s, .free (.enter buf)) else .ok (s, .idle)
  | .free pc =>
      match pc.step s with
      | (s, some pc) => .ok (s, .free pc)
      | (s, none) => .ok (s, .idle)

/-! ## do_netif_in -/

/-- What a run of `do_netif_in` does next. In `linkIn` it is about to call
`link_in`, whose `set_cont_header` gives `gone` back before `is_pkt_ok`
is asked (`check`). -/
inductive WorkPc where
  | idle
  | loop
  | get
  | linkIn (buf : BufId)
  | cont (buf : BufId) (gone : List BlkPtr)
  | check (buf : BufId)
  | free (pc : FreePc)
  deriving DecidableEq, Repr

def WorkPc.step (s : Stack) : WorkPc → Except Fault (Stack × WorkPc)
  | .idle => .ok (s, .idle)
  | .loop => .ok (s, if s.netif.inQ.items.length ≠ 0 then .get else .idle)
  | .get => do
      match ← s.getBufFromInQueue with
      | (none, s) => .ok (s, .idle)
      | (some buf, s) => .ok (s, .linkIn buf)
  | .linkIn buf => do
      let (_, b, gone) ← PktBuffer.gatherHeader s.mgr.blkSize (s.bufs buf) etherHdrSize
      .ok (s.putPkt s.mgr buf b, .cont buf gone)
  | .cont buf [] => .ok (s, .check buf)
  | .cont buf (ptr :: gone) => .ok (s.putMgr (s.mgr.releasePktblock ptr), .cont buf gone)
  | .check buf =>
      if (isPktOk (s.bufs buf).capacity).isErr then .ok (s, .free (.enter buf))
      else do
        -- the protocol is only logged, and nobody has the packet afterwards
        let _ ← loadData (s.bufs buf) protocolOffset 2
        .ok (s, .loop)
  | .free pc =>
      match pc.step s with
      | (s, some pc) => .ok (s, .free pc)
      | (s, none) => .ok (s, .loop)

/-! ## Both threads -/

structure RecvPath extends Stack where
  recv : RecvPc
  work : WorkPc

/-- A frame arrives, `do_netif_in` is called, or a thread takes a step. -/
inductive RecvAct where
  | capture (pktData : List UInt8)
  | recv
  | netifIn
  | work
  deriving DecidableEq, Repr

namespace RecvPath

variable (s : RecvPath)

/-- A thread that is busy neither takes a frame nor starts again. The
length of a frame is a `bpf_u_int32`. -/
def exec : RecvAct → Except Fault RecvPath
  | .capture pktData =>
      if s.recv = .idle ∧ pktData.length < 2 ^ 32 then .ok { s with recv := .start pktData }
      else .ok s
  | .recv => do
      let (stack, pc) ← s.recv.step s.toStack
      .ok { s with toStack := stack, recv := pc }
  | .netifIn => if s.work = .idle then .ok { s with work := .loop } else .ok s
  | .work => do
      let (stack, pc) ← s.work.step s.toStack
      .ok { s with toStack := stack, work := pc }

/-- A fault ends the run. -/
def next (s : RecvPath) (a : RecvAct) : Option RecvPath := (s.exec a).toOption

/-- No packet waits and no iteration is in progress. -/
def Quiet : Prop := s.netif.inQ.items = [] ∧ s.recv = .idle ∧ s.work = .idle

instance : Decidable s.Quiet := by
  unfold Quiet
  infer_instance

end RecvPath

end TinyTcp.Net
