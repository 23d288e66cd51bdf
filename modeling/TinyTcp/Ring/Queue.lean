/-
TinyTcp.Ring.Queue — `LockFreeRingQueue<T>` of `src/lock_free_ring_queue.h`
and the interleavings of the threads that call `push` and `pop` on it.

The shared memory of a queue is the record `LockFreeRingQueue`: four
32-bit atomics and the slot array. A thread is described by `Pc`, which
names the atomic access it performs next and holds its local variables.
`act` is one such access: a load, a compare-exchange, a `fetch_add` /
`fetch_sub`, or a read or write of a slot. Tests on local values belong to
the load before them. A `compare_exchange_weak` may fail although the
values agree; the label `spurious` chooses that outcome.

`Sys` puts the threads `ι` around one memory. Any thread may call `push`
or `pop` whenever it is idle, and the labels of a run pick the order, so a
`Lib.run` of `Sys.step` is a sequentially consistent interleaving. The
field `hist` only records what happened (which push reserved when, which
push wrote a slot last, what the pops took); `act` never reads it.

The timeout arguments of `push` and `pop` are not used by the source and
are left out, as is the null check of `pop`, whose callers pass the
address of a local.
-/
import TinyTcp.Lib.Wrap32
import TinyTcp.Lib.Run
import Mathlib.Logic.Function.Basic

namespace TinyTcp.Ring

open TinyTcp.Lib

/-! ## Shared memory -/

/-- The members of a queue object. `queue` is only indexed below `size`. -/
structure LockFreeRingQueue (α : Type) where
  size : UInt32
  length : UInt32
  readIndex : UInt32
  writeIndex : UInt32
  lastWriteIndex : UInt32
  queue : UInt32 → α

def isPowerOfTwo (num : UInt32) : Bool :=
  num != 0 && (num &&& (num - 1)) == 0

def ceilPowerOfTwo (num : UInt32) : UInt32 :=
  let num := num ||| (num >>> 1)
  let num := num ||| (num >>> 2)
  let num := num ||| (num >>> 4)
  let num := num ||| (num >>> 8)
  let num := num ||| (num >>> 16)
  num - (num >>> 1)

def roundUppowerOfTwo (num : UInt32) : UInt32 :=
  ceilPowerOfTwo ((num - 1) <<< 1)

/-- The initialiser of `m_size`. -/
def queueSize (size : UInt32) : UInt32 :=
  if size ≤ 1 then 2
  else if isPowerOfTwo size then size
  else roundUppowerOfTwo size

/-- The object the constructor builds for a requested size other than `0`,
for which it throws. `make_unique<T[]>` value-initialises the slots. -/
def LockFreeRingQueue.create {α : Type} [Inhabited α] (size : UInt32) : LockFreeRingQueue α where
  size := queueSize size
  length := 0
  readIndex := 0
  writeIndex := 0
  lastWriteIndex := 0
  queue := fun _ => default

namespace LockFreeRingQueue

variable {α : Type} (q : LockFreeRingQueue α)

def indexOfQueue (index : UInt32) : UInt32 := index &&& (q.size - 1)

/-- The test `push` makes on the indices it loaded, here on the current ones. -/
def full : Bool := q.indexOfQueue (q.writeIndex + 1) == q.indexOfQueue q.readIndex

end LockFreeRingQueue

/-! ## One thread -/

/-- The access a thread performs next, with its local variables. -/
inductive Pc (α : Type) where
  | idle
  | pushLoadRead (data : α)
  | pushLoadWrite (data : α) (currentReadIndex : UInt32)
  | pushReserve (data : α) (currentWriteIndex : UInt32)
  | pushStore (data : α) (currentWriteIndex : UInt32)
  | pushConfirm (data : α) (currentWriteIndex : UInt32)
  | pushCount
  | popLoadRead
  | popLoadLast (currentReadIndex : UInt32)
  | popReadSlot (currentReadIndex : UInt32)
  | popAdvance (currentReadIndex : UInt32) (data : α)
  | popCount (data : α)
  deriving DecidableEq

/-- How a thread moves: it enters a call, or performs its next access. -/
inductive Label (α : Type) where
  | push (data : α)
  | pop
  | go
  | spurious
  deriving DecidableEq

/-- What an access did, as far as anybody else can tell. -/
inductive Event (α : Type) where
  | called
  | quiet
  | loadedRead
  | reserved (data : α)
  | stored (slot : UInt32)
  | confirmed (data : α)
  | sawSlot (slot : UInt32)
  | consumed (data : α)
  | pushReturned (ok : Bool)
  | popReturned (data : Option α)

/-- One atomic access of a thread: the memory and the thread after it. -/
def act {α : Type} (q : LockFreeRingQueue α) :
    Pc α → Label α → Option (LockFreeRingQueue α × Pc α × Event α)
  | .idle, .push data => some (q, .pushLoadRead data, .called)
  | .idle, .pop => some (q, .popLoadRead, .called)
  | .pushLoadRead data, .go => some (q, .pushLoadWrite data q.readIndex, .quiet)
  | .pushLoadWrite data r, .go =>
      if q.indexOfQueue (q.writeIndex + 1) = q.indexOfQueue r then
        some (q, .idle, .pushReturned false)
      else some (q, .pushReserve data q.writeIndex, .quiet)
  | .pushReserve data w, .go =>
      if q.writeIndex = w then
        some ({ q with writeIndex := w + 1 }, .pushStore data w, .reserved data)
      else some (q, .pushLoadRead data, .quiet)
  | .pushReserve data _, .spurious => some (q, .pushLoadRead data, .quiet)
  | .pushStore data w, .go =>
      some ({ q with queue := Function.update q.queue (q.indexOfQueue w) data },
        .pushConfirm data w, .stored (q.indexOfQueue w))
  | .pushConfirm data w, .go =>
      if q.lastWriteIndex = w then
        some ({ q with lastWriteIndex := w + 1 }, .pushCount, .confirmed data)
      -- the failed compare-exchange overwrites `current_write_index`
      else some (q, .pushConfirm data q.lastWriteIndex, .quiet)
  | .pushConfirm data _, .spurious => some (q, .pushConfirm data q.lastWriteIndex, .quiet)
  | .pushCount, .go => some ({ q with length := q.length + 1 }, .idle, .pushReturned true)
  | .popLoadRead, .go => some (q, .popLoadLast q.readIndex, .loadedRead)
  | .popLoadLast r, .go =>
      if q.indexOfQueue q.lastWriteIndex = q.indexOfQueue r then
        some (q, .idle, .popReturned none)
      else some (q, .popReadSlot r, .quiet)
  | .popReadSlot r, .go =>
      some (q, .popAdvance r (q.queue (q.indexOfQueue r)), .sawSlot (q.indexOfQueue r))
  | .popAdvance r data, .go =>
      if q.readIndex = r then
        some ({ q with readIndex := r + 1 }, .popCount data, .consumed data)
      else some (q, .popLoadRead, .quiet)
  | .popAdvance _ _, .spurious => some (q, .popLoadRead, .quiet)
  | .popCount data, .go =>
      some ({ q with length := q.length - 1 }, .idle, .popReturned (some data))
  | _, _ => none

/-! ## What one access can do -/

/-- The branches of `act`, a constructor each: the case analysis that every
invariant of a queue is proved by. -/
inductive Access {α : Type} (q : LockFreeRingQueue α) :
    Pc α → Label α → LockFreeRingQueue α → Pc α → Event α → Prop where
  | callPush (data : α) : Access q .idle (.push data) q (.pushLoadRead data) .called
  | callPop : Access q .idle .pop q .popLoadRead .called
  | pushLoadRead (data : α) :
      Access q (.pushLoadRead data) .go q (.pushLoadWrite data q.readIndex) .quiet
  | pushRefused (data : α) (r : UInt32)
      (hfull : q.indexOfQueue (q.writeIndex + 1) = q.indexOfQueue r) :
      Access q (.pushLoadWrite data r) .go q .idle (.pushReturned false)
  | pushLoadWrite (data : α) (r : UInt32)
      (hroom : q.indexOfQueue (q.writeIndex + 1) ≠ q.indexOfQueue r) :
      Access q (.pushLoadWrite data r) .go q (.pushReserve data q.writeIndex) .quiet
  | pushReserve (data : α) :
      Access q (.pushReserve data q.writeIndex) .go
        { q with writeIndex := q.writeIndex + 1 } (.pushStore data q.writeIndex) (.reserved data)
  | pushRetry (data : α) (w : UInt32) (l : Label α)
      (hl : l = .spurious ∨ l = .go ∧ q.writeIndex ≠ w) :
      Access q (.pushReserve data w) l q (.pushLoadRead data) .quiet
  | pushStore (data : α) (w : UInt32) :
      Access q (.pushStore data w) .go
        { q with queue := Function.update q.queue (q.indexOfQueue w) data }
        (.pushConfirm data w) (.stored (q.indexOfQueue w))
  | pushConfirm (data : α) :
      Access q (.pushConfirm data q.lastWriteIndex) .go
        { q with lastWriteIndex := q.lastWriteIndex + 1 } .pushCount (.confirmed data)
  | pushReread (data : α) (w : UInt32) (l : Label α)
      (hl : l = .spurious ∨ l = .go ∧ q.lastWriteIndex ≠ w) :
      Access q (.pushConfirm data w) l q (.pushConfirm data q.lastWriteIndex) .quiet
  | pushCount :
      Access q .pushCount .go { q with length := q.length + 1 } .idle (.pushReturned true)
  | popLoadRead : Access q .popLoadRead .go q (.popLoadLast q.readIndex) .loadedRead
  | popRefused (r : UInt32) (hempty : q.indexOfQueue q.lastWriteIndex = q.indexOfQueue r) :
      Access q (.popLoadLast r) .go q .idle (.popReturned none)
  | popLoadLast (r : UInt32) (hne : q.indexOfQueue q.lastWriteIndex ≠ q.indexOfQueue r) :
      Access q (.popLoadLast r) .go q (.popReadSlot r) .quiet
  | popReadSlot (r : UInt32) :
      Access q (.popReadSlot r) .go q (.popAdvance r (q.queue (q.indexOfQueue r)))
        (.sawSlot (q.indexOfQueue r))
  | popAdvance (data : α) :
      Access q (.popAdvance q.readIndex data) .go
        { q with readIndex := q.readIndex + 1 } (.popCount data) (.consumed data)
  | popRetry (r : UInt32) (data : α) (l : Label α)
      (hl : l = .spurious ∨ l = .go ∧ q.readIndex ≠ r) :
      Access q (.popAdvance r data) l q .popLoadRead .quiet
  | popCount (data : α) :
      Access q (.popCount data) .go { q with length := q.length - 1 } .idle
        (.popReturned (some data))

theorem act_iff_access {α : Type} {q q' : LockFreeRingQueue α} {pc pc' : Pc α} {l : Label α}
    {e : Event α} : act q pc l = some (q', pc', e) ↔ Access q pc l q' pc' e := by
  constructor
  · intro hact
    fun_cases act q pc l <;>
      simp only [act, *, if_true, if_false, Option.some.injEq, Prod.mk.injEq, reduceCtorEq] at hact <;>
      obtain ⟨rfl, rfl, rfl⟩ := hact <;>
      constructor <;>
      simp [*]
  · intro h
    cases h with
    | pushRetry data w l hl | pushReread data w l hl | popRetry r data l hl =>
      rcases hl with rfl | ⟨rfl, hne⟩
      · rfl
      · simp [act, hne]
    | _ => simp [act, *]

/-! ## The record of a run -/

/-- What is recorded for one thread: the number of the reservation it made
last, the push that had written the slot it read last, the number of
successful pops when it loaded the read index last, and the number of
index increments since it entered its current call. -/
structure Local where
  ticket : Nat
  source : Option Nat
  loadedAt : Nat
  increments : Nat

/-- Pushes are numbered in the order of their reservations. -/
structure History (ι α : Type) where
  /-- the values of the reserved pushes, by number -/
  pushes : List α
  /-- the pushes that have completed their slot write -/
  stored : Nat → Bool
  /-- the push that wrote a slot last -/
  writer : UInt32 → Option Nat
  /-- the values of the confirmed pushes, in the order of their confirmations -/
  confirmed : List α
  /-- the successful pops in order: who had written the slot when it was
  read, and the value -/
  pops : List (Option Nat × α)
  thread : ι → Local

def History.empty (ι α : Type) : History ι α where
  pushes := []
  stored := fun _ => false
  writer := fun _ => none
  confirmed := []
  pops := []
  thread := fun _ => ⟨0, none, 0, 0⟩

namespace History

variable {ι α : Type} [DecidableEq ι]

/-- Changes what is recorded for the thread `t`. -/
def setLocal (h : History ι α) (t : ι) (f : Local → Local) : History ι α :=
  { h with thread := Function.update h.thread t (f (h.thread t)) }

/-- Counts one index increment for every thread. -/
def tick (h : History ι α) : History ι α :=
  { h with thread := fun u => { h.thread u with increments := (h.thread u).increments + 1 } }

/-- The record after thread `t` caused the event. -/
def record (h : History ι α) (t : ι) : Event α → History ι α
  | .called => h.setLocal t fun l => { l with increments := 0 }
  | .loadedRead => h.setLocal t fun l => { l with loadedAt := h.pops.length }
  | .reserved data =>
      ({ h with pushes := h.pushes ++ [data] }.setLocal t
        fun l => { l with ticket := h.pushes.length }).tick
  | .stored slot =>
      { h with
        stored := Function.update h.stored (h.thread t).ticket true
        writer := Function.update h.writer slot (some (h.thread t).ticket) }
  | .confirmed data => { h with confirmed := h.confirmed ++ [data] }.tick
  | .sawSlot slot => h.setLocal t fun l => { l with source := h.writer slot }
  | .consumed data => { h with pops := h.pops ++ [((h.thread t).source, data)] }.tick
  | .quiet | .pushReturned _ | .popReturned _ => h

theorem record_called (h : History ι α) (t : ι) :
    h.record t .called = h.setLocal t fun l => { l with increments := 0 } := rfl

theorem record_loadedRead (h : History ι α) (t : ι) :
    h.record t .loadedRead = h.setLocal t fun l => { l with loadedAt := h.pops.length } := rfl

theorem record_sawSlot (h : History ι α) (t : ι) (slot : UInt32) :
    h.record t (.sawSlot slot) = h.setLocal t fun l => { l with source := h.writer slot } := rfl

end History

/-! ## The threads together -/

structure Sys (ι α : Type) where
  mem : LockFreeRingQueue α
  pc : ι → Pc α
  hist : History ι α

namespace Sys

variable {ι α : Type} [DecidableEq ι]

def init [Inhabited α] (ι : Type) (size : UInt32) : Sys ι α where
  mem := .create size
  pc := fun _ => .idle
  hist := .empty ι α

/-- The thread `m.1` moves as `m.2` says. -/
def step (s : Sys ι α) (m : ι × Label α) : Option (Sys ι α) :=
  match act s.mem (s.pc m.1) m.2 with
  | some (mem, pc, e) =>
      some { mem := mem, pc := Function.update s.pc m.1 pc, hist := s.hist.record m.1 e }
  | none => none

end Sys

end TinyTcp.Ring
