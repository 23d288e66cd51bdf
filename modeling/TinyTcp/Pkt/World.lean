/-
TinyTcp.Pkt.World — the buffers of the program side by side, and the calls
their holders make.

A `World` is the manager and every buffer object by its address. `Op` is
one call of a member function with its arguments, `Reply` what it returns.
`World.step` performs a call; a call of one buffer changes that buffer and
the pools, `copy` and `merge_buf` also change the other buffer, which is
not the same one. Cursors that `merge_buf` has taken into another packet
are followed in `Pkt.Carried`.
-/
import TinyTcp.Pkt.Buffer
import Mathlib.Data.Finset.Basic
import Mathlib.Logic.Function.Basic

namespace TinyTcp.Pkt

structure World where
  mgr : PktManager
  bufs : BufId → PktBuffer

/-- A call; the first argument is the buffer it is made on. -/
inductive Op where
  | alloc (i : BufId) (size : Nat) (allocFront insertFront : Bool)
  | allocHeader (i : BufId) (size : Nat) (isCont : Bool)
  | removeHeader (i : BufId) (size : Nat)
  | resize (i : BufId) (size : Nat)
  | mergeBuf (i : BufId) (buf : BufId)
  | setContHeader (i : BufId) (size : Nat)
  | resetAccess (i : BufId)
  | seek (i : BufId) (offset : Nat)
  | read (i : BufId) (dest : Option (List UInt8)) (size : Nat)
  | write (i : BufId) (src : Option (List UInt8)) (size : Nat)
  | fill (i : BufId) (v : UInt8) (size : Nat)
  | copy (i : BufId) (src : BufId) (size : Nat)
  deriving DecidableEq

inductive Reply where
  | unit
  | bool (ok : Bool)
  | err (e : NetErr)
  | read (e : NetErr) (dest : Option (List UInt8))
  deriving DecidableEq, Repr

/-- Which buffers are in use after a call: `merge_buf` releases the other one. -/
def liveAfter (live : Finset BufId) : Op → Finset BufId
  | .mergeBuf _ buf => live.erase buf
  | _ => live

/-- The call was successful, as its caller sees it. -/
def Reply.succeeded : Reply → Bool
  | .unit => true
  | .bool ok => ok
  | .err e => !e.isErr
  | .read e _ => !e.isErr

namespace World

variable (w : World)

def put (m : PktManager) (i : BufId) (b : PktBuffer) : World :=
  { mgr := m, bufs := Function.update w.bufs i b }

def putBuf (i : BufId) (b : PktBuffer) : World := w.put w.mgr i b

@[simp] theorem put_mgr (m : PktManager) (i : BufId) (b : PktBuffer) : (w.put m i b).mgr = m := rfl

@[simp] theorem put_self (m : PktManager) (i : BufId) (b : PktBuffer) :
    (w.put m i b).bufs i = b := Function.update_self ..

@[simp] theorem put_of_ne {m : PktManager} {i j : BufId} {b : PktBuffer} (h : j ≠ i) :
    (w.put m i b).bufs j = w.bufs j := Function.update_of_ne h ..

@[simp] theorem putBuf_mgr (i : BufId) (b : PktBuffer) : (w.putBuf i b).mgr = w.mgr := rfl

@[simp] theorem putBuf_self (i : BufId) (b : PktBuffer) : (w.putBuf i b).bufs i = b :=
  Function.update_self ..

@[simp] theorem putBuf_of_ne {i j : BufId} {b : PktBuffer} (h : j ≠ i) :
    (w.putBuf i b).bufs j = w.bufs j := Function.update_of_ne h ..

/-- Writing back what is there changes nothing. -/
@[simp] theorem putBuf_bufs (i : BufId) : w.putBuf i (w.bufs i) = w := by
  simp [putBuf, put]

open PktBuffer in
def step : Op → Except Fault (Reply × World)
  | .alloc i size allocFront insertFront => do
      let (ok, m, b) ← alloc w.mgr (w.bufs i) size allocFront insertFront
      .ok (.bool ok, w.put m i b)
  | .allocHeader i size isCont => do
      let (e, m, b) ← allocHeader w.mgr (w.bufs i) size isCont
      .ok (.err e, w.put m i b)
  | .removeHeader i size => do
      let (e, m, b) ← removeHeader w.mgr (w.bufs i) size
      .ok (.err e, w.put m i b)
  | .resize i size => do
      let (e, m, b) ← resize w.mgr i (w.bufs i) size
      .ok (.err e, w.put m i b)
  | .mergeBuf i buf =>
      let (e, m, b, other) := mergeBuf w.mgr i (w.bufs i) buf (w.bufs buf)
      .ok (.err e, (w.put m i b).putBuf buf other)
  | .setContHeader i size => do
      let (e, m, b) ← setContHeader w.mgr (w.bufs i) size
      .ok (.err e, w.put m i b)
  | .resetAccess i => do
      let b ← (w.bufs i).resetAccess
      .ok (.unit, w.putBuf i b)
  | .seek i offset => do
      let (e, b) ← (w.bufs i).seek offset
      .ok (.err e, w.putBuf i b)
  | .read i dest size => do
      let (e, dest, b) ← (w.bufs i).read dest size
      .ok (.read e dest, w.putBuf i b)
  | .write i src size => do
      let (e, b) ← (w.bufs i).write src size
      .ok (.err e, w.putBuf i b)
  | .fill i v size => do
      let (e, b) ← (w.bufs i).fill v size
      .ok (.err e, w.putBuf i b)
  | .copy i src size => do
      let (e, b, s) ← (w.bufs i).copy (w.bufs src) size
      .ok (.err e, (w.putBuf i b).putBuf src s)

/-! What a call returns is what the member function returns. -/

section Calls

variable {w : World} {i : BufId} {size : Nat} {m : PktManager} {b : PktBuffer} {e : NetErr}

theorem step_alloc {f ins ok : Bool}
    (h : PktBuffer.alloc w.mgr (w.bufs i) size f ins = .ok (ok, m, b)) :
    w.step (.alloc i size f ins) = .ok (.bool ok, w.put m i b) := by
  simp only [step, h, ok_bind]

theorem step_allocHeader {isCont : Bool}
    (h : PktBuffer.allocHeader w.mgr (w.bufs i) size isCont = .ok (e, m, b)) :
    w.step (.allocHeader i size isCont) = .ok (.err e, w.put m i b) := by
  simp only [step, h, ok_bind]

theorem step_removeHeader (h : PktBuffer.removeHeader w.mgr (w.bufs i) size = .ok (e, m, b)) :
    w.step (.removeHeader i size) = .ok (.err e, w.put m i b) := by
  simp only [step, h, ok_bind]

theorem step_resize (h : PktBuffer.resize w.mgr i (w.bufs i) size = .ok (e, m, b)) :
    w.step (.resize i size) = .ok (.err e, w.put m i b) := by
  simp only [step, h, ok_bind]

theorem step_setContHeader
    (h : PktBuffer.setContHeader w.mgr (w.bufs i) size = .ok (e, m, b)) :
    w.step (.setContHeader i size) = .ok (.err e, w.put m i b) := by
  simp only [step, h, ok_bind]

end Calls

end World

end TinyTcp.Pkt
