/-
TinyTcp.Msg.Exmsg — the messages to the working thread and the threads
that handle them: `exmsg_t` of `src/net/exmsg.h`, `INetIF::put_buf_to_in_queue`
of `src/net/netif.cc`, `exmsg_netif_in` and `msg_send` of `src/net/network.cc`,
`src/net/protocol_stack.cc`, and `work_thread_func`, `do_netif_in` and
`timer_thread_func` of `src/net/net.cc`, on the pools of `src/net/memblock.cc`.

Each operation of a pool or of a queue is a step, and the threads take
their steps in any order. `CallPc`, `TimerPc` and `WorkPc` say what a
thread does next, with its local variables; what it does in between
concerns a block that it alone holds, and is part of a step.

A block is known by the pool whose storage it is in and its number there.
The blocks of a pool are raw memory at first, with any contents. Reading
the member of the union that is not the active one ends the run.

A call may come from any thread, any number of calls are in progress at a
time, and the work of `link_in` and of a callback is left out: what either
does to the messages it does through such calls. What `list_expired_cb`
returns is up to the schedule; a function is `none` if it is empty. What
the calls return is in `Net.Netif`; nobody looks at it here.

`History` only records what happened, the threads never read it.
-/
import TinyTcp.Mem.MemBlock
import TinyTcp.Net.Netif
import TinyTcp.Ring.Queue

namespace TinyTcp.Msg

open TinyTcp.Lib TinyTcp.Pkt TinyTcp.Ring

variable {ι κ : Type}

/-! ## Messages -/

inductive MsgPool where
  | main
  | timer
  deriving DecidableEq, Repr

/-- A block: where it comes from, and its number there. -/
structure MsgPtr where
  pool : MsgPool
  index : Nat
  deriving DecidableEq, Repr

inductive ExMsgType where
  | netifIn
  | timerFun
  deriving DecidableEq, Repr

/-- The callback at `index` of what the `batch`-th `list_expired_cb` returned. -/
structure Job (κ : Type) where
  batch : Nat
  index : Nat
  cb : κ
  deriving DecidableEq, Repr

abbrev Func (κ : Type) := Option (Job κ)

/-- The union, by its active member. -/
inductive MsgData (ι κ : Type) where
  | raw
  | netif (netif : ι)
  | timer (func : Func κ)
  deriving DecidableEq, Repr

structure ExMsg (ι κ : Type) where
  type : ExMsgType
  data : MsgData ι κ
  deriving DecidableEq, Repr

namespace ExMsg

/-- `exmsg_t()` -/
def new : ExMsg ι κ := ⟨.netifIn, .timer none⟩

/-- `~exmsg_t()` -/
def destroy (msg : ExMsg ι κ) : Option (ExMsg ι κ) :=
  match msg.type, msg.data with
  | .timerFun, .timer _ => some { msg with data := .raw }
  | .timerFun, _ => none
  | .netifIn, _ => some { msg with data := .raw }

end ExMsg

/-! ## Threads -/

/-- A call of `put_buf_to_in_queue` or of `exmsg_netif_in`. -/
inductive CallPc (ι : Type) where
  | done
  | put (netif : ι) (buf : BufId)
  | getMsgBlock (netif : ι)
  | msgSend (netif : ι) (msg : MsgPtr)
  | release (netif : ι) (msg : MsgPtr)
  deriving DecidableEq, Repr

/-- The timer thread, with the callbacks it has still to send. In
`pushMsg` and `release` the message carries `func`. -/
inductive TimerPc (κ : Type) where
  | idle
  | batch (cbs : List (Func κ))
  | pushMsg (func : Func κ) (msg : MsgPtr) (cbs : List (Func κ))
  | release (func : Func κ) (msg : MsgPtr) (cbs : List (Func κ))
  deriving DecidableEq, Repr

/-- The working thread. In `loop` and `get` it is in `do_netif_in`. -/
inductive WorkPc (ι κ : Type) where
  | idle
  | loop (netif : ι) (msg : MsgPtr)
  | get (netif : ι) (msg : MsgPtr)
  | run (func : Func κ) (msg : MsgPtr)
  | release (msg : MsgPtr)
  deriving DecidableEq, Repr

/-! ## State -/

/-- A block is given back to `pool`, which has room for it or not. -/
structure Release where
  pool : MsgPool
  msg : MsgPtr
  ok : Bool
  deriving DecidableEq, Repr

structure History (κ : Type) where
  /-- what each `list_expired_cb` returned -/
  taken : List (List (Option κ))
  ran : List (Job κ)
  releases : List Release

structure Sys (ι κ : Type) where
  memBlock : Fifo MsgPtr
  timerMemBlock : Fifo MsgPtr
  msgQueue : Fifo MsgPtr
  inQ : ι → Fifo BufId
  mem : MsgPtr → ExMsg ι κ
  calls : List (CallPc ι)
  timer : TimerPc κ
  work : WorkPc ι κ
  hist : History κ

/-- A `LockFreeRingQueue` of the requested size; the constructor throws for zero. -/
def newQueue (α : Type) (size : UInt32) : Option (Fifo α) :=
  if size = 0 then none else some ⟨(queueSize size - 1).toNat, []⟩

/-- The constructor of `MemBlock`: the size of the array is a product of two `int`, and there
is no room in the queue for the last block that is pushed. -/
def newMemBlock (pool : MsgPool) (blockSize : Int32) (capacity : UInt32) : Option (Fifo MsgPtr) := do
  let queue ← newQueue MsgPtr capacity
  let capacity := (queueSize capacity).toInt32
  let bytes ← (Mem.mulInt blockSize capacity).toOption
  if bytes.toInt < 0 then none
  else some (queue.pushAll ((List.range capacity.toInt.toNat).map (MsgPtr.mk pool)))

namespace Sys

/-- The stack and its interfaces, before any message; `exmsgSize` is `sizeof(exmsg_t)`. -/
def create (exmsgSize : Int32) (msgQueueSize timerMsgQueueSize netifInQueueSize : UInt32)
    (mem : MsgPtr → ExMsg ι κ) : Option (Sys ι κ) := do
  let memBlock ← newMemBlock .main exmsgSize msgQueueSize
  let timerMemBlock ← newMemBlock .timer exmsgSize timerMsgQueueSize
  let msgQueue ← newQueue MsgPtr msgQueueSize
  let inQ ← newQueue BufId netifInQueueSize
  some {
    memBlock := memBlock, timerMemBlock := timerMemBlock, msgQueue := msgQueue
    inQ := fun _ => inQ, mem := mem, calls := [], timer := .idle, work := .idle
    hist := ⟨[], [], []⟩ }

variable (s : Sys ι κ)

/-! ## Blocks and the queue of messages -/

def setMsg (msg : MsgPtr) (m : ExMsg ι κ) : Sys ι κ :=
  { s with mem := Function.update s.mem msg m }

def getMsgBlock : Option (MsgPtr × Sys ι κ) :=
  match s.memBlock.pop with
  | none => none
  | some (msg, memBlock) => some (msg, { s with memBlock := memBlock })

def releaseMsgBlock (msg : MsgPtr) : Sys ι κ :=
  let (ok, memBlock) := s.memBlock.push msg
  { s with
    memBlock := memBlock
    hist := { s.hist with releases := s.hist.releases ++ [⟨.main, msg, ok⟩] } }

def getTimerMsgBlock : Option (MsgPtr × Sys ι κ) :=
  match s.timerMemBlock.pop with
  | none => none
  | some (ptr, timerMemBlock) =>
      some (ptr, { s with timerMemBlock := timerMemBlock }.setMsg ptr
        { (.new : ExMsg ι κ) with type := .timerFun })

def releaseTimerMsgBlock (msg : MsgPtr) : Option (Sys ι κ) := do
  let m ← (s.mem msg).destroy
  let (ok, timerMemBlock) := s.timerMemBlock.push msg
  some { s.setMsg msg m with
    timerMemBlock := timerMemBlock
    hist := { s.hist with releases := s.hist.releases ++ [⟨.timer, msg, ok⟩] } }

def pushMsg (msg : MsgPtr) : NetErr × Sys ι κ :=
  match s.msgQueue.push msg with
  | (true, msgQueue) => (.ok, { s with msgQueue := msgQueue })
  | (false, _) => (.mem, s)

def msgSend (msg : MsgPtr) : NetErr × Sys ι κ :=
  let (_, s) := s.pushMsg msg
  (.ok, s)

/-- The record when `list_expired_cb` returns. -/
def take (cbs : List (Option κ)) : Sys ι κ :=
  { s with hist := { s.hist with taken := s.hist.taken ++ [cbs] } }

/-- The callback of a message is run, unless it is empty. -/
def runFunc (func : Func κ) : Sys ι κ :=
  { s with hist := { s.hist with ran := s.hist.ran ++ func.toList } }

end Sys

/-- The functions of a batch. -/
def jobs (batch : Nat) (cbs : List (Option κ)) : List (Func κ) :=
  cbs.zipIdx.map fun (cb, index) => cb.map (Job.mk batch index)

/-! ## Steps -/

variable [DecidableEq ι]

def Sys.setInQ (s : Sys ι κ) (netif : ι) (inQ : Fifo BufId) : Sys ι κ :=
  { s with inQ := Function.update s.inQ netif inQ }

def CallPc.step (s : Sys ι κ) : CallPc ι → Sys ι κ × CallPc ι
  | .done => (s, .done)
  | .put netif buf =>
      match (s.inQ netif).push buf with
      | (true, inQ) => (s.setInQ netif inQ, .getMsgBlock netif)
      | (false, _) => (s, .done)
  | .getMsgBlock netif =>
      match s.getMsgBlock with
      | none => (s, .done)
      | some (msg, s) => (s.setMsg msg ⟨.netifIn, .netif netif⟩, .msgSend netif msg)
  | .msgSend netif msg =>
      let (err, s) := s.msgSend msg
      if err.isErr then (s, .release netif msg) else (s, .done)
  | .release _ msg => (s.releaseMsgBlock msg, .done)

def TimerPc.step (s : Sys ι κ) : TimerPc κ → Option (Sys ι κ × TimerPc κ)
  | .idle => some (s, .idle)
  | .batch [] => some (s, .idle)
  | .batch (cb :: cbs) =>
      match s.getTimerMsgBlock with
      | none => some (s, .batch cbs)
      | some (msg, s) => some (s.setMsg msg ⟨.timerFun, .timer cb⟩, .pushMsg cb msg cbs)
  | .pushMsg func msg cbs =>
      let (err, s) := s.pushMsg msg
      if err.isErr then some (s, .release func msg cbs) else some (s, .batch cbs)
  | .release _ msg cbs => do
      let s ← s.releaseTimerMsgBlock msg
      some (s, .batch cbs)

/-- The `switch` of `work_thread_func`; the callback is swapped out of the message. -/
def WorkPc.dispatch (s : Sys ι κ) (msg : MsgPtr) : Option (Sys ι κ × WorkPc ι κ) :=
  match (s.mem msg).type, (s.mem msg).data with
  | .netifIn, .netif netif => some (s, .loop netif msg)
  | .timerFun, .timer func => some (s.setMsg msg ⟨.timerFun, .timer none⟩, .run func msg)
  | _, _ => none

def WorkPc.step (s : Sys ι κ) : WorkPc ι κ → Option (Sys ι κ × WorkPc ι κ)
  | .idle =>
      match s.msgQueue.pop with
      | none => some (s, .idle)
      | some (msg, msgQueue) => WorkPc.dispatch { s with msgQueue := msgQueue } msg
  | .loop netif msg =>
      if (s.inQ netif).items.length ≠ 0 then some (s, .get netif msg)
      else some (s, .release msg)
  -- `link_in` has the packet then
  | .get netif msg =>
      match (s.inQ netif).pop with
      | none => some (s, .release msg)
      | some (_, inQ) => some (s.setInQ netif inQ, .loop netif msg)
  | .run func msg => some (s.runFunc func, .release msg)
  | .release msg =>
      match (s.mem msg).type with
      | .timerFun => do
          let s ← s.releaseTimerMsgBlock msg
          some (s, .idle)
      | .netifIn => some (s.releaseMsgBlock msg, .idle)

/-- A thread calls `put_buf_to_in_queue` or `exmsg_netif_in`, such a call
takes its next step, `list_expired_cb` returns, or one of the two threads
of the stack takes a step. -/
inductive Act (ι κ : Type) where
  | put (netif : ι) (buf : BufId)
  | netifIn (netif : ι)
  | call (k : Nat)
  | expire (cbs : List (Option κ))
  | timer
  | work
  deriving DecidableEq, Repr

namespace Sys

variable (s : Sys ι κ)

/-- A batch is taken when the one before is dealt with. -/
def next : Act ι κ → Option (Sys ι κ)
  | .put netif buf => some { s with calls := s.calls ++ [.put netif buf] }
  | .netifIn netif => some { s with calls := s.calls ++ [.getMsgBlock netif] }
  | .call k =>
      match s.calls[k]? with
      | none => some s
      | some pc =>
          let (t, pc) := pc.step s
          some { t with calls := s.calls.set k pc }
  | .expire cbs =>
      match s.timer with
      | .idle => some { s.take cbs with timer := .batch (jobs s.hist.taken.length cbs) }
      | _ => some s
  | .timer => do
      let (t, pc) ← s.timer.step s
      some { t with timer := pc }
  | .work => do
      let (t, pc) ← s.work.step s
      some { t with work := pc }

/-- No step is in progress. -/
def Quiet : Prop := (∀ pc ∈ s.calls, pc = .done) ∧ s.timer = .idle ∧ s.work = .idle

instance [DecidableEq κ] : Decidable s.Quiet := inferInstanceAs (Decidable (_ ∧ _ ∧ _))

end Sys

end TinyTcp.Msg
