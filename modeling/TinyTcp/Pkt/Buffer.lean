/-
TinyTcp.Pkt.Buffer — `PktBuffer` of `src/net/pktbuf.h` and
`src/net/pktbuf.cc`: a packet as a list of blocks with a cursor.

The cursor is the three members `m_pos`, `m_cur_blk` and `m_blk_offset`.
An iterator of `m_blk_list` is an `Iter`: `end()`, the index of its node,
`moved` once `merge_buf` has spliced its node into the list of another
packet, or `dangling` once its node has been erased. The operations on the
list shift the index as the node moves. The pointer `m_blk_offset` is set
together with `m_cur_blk` and is the offset into the payload of that block,
`none` for `nullptr`.

What is here sees one packet, for `copy` and `merge_buf` two. An access
through a `moved` iterator goes to a block of a packet it does not see and
ends with `elsewhere`, which is no fault of the code; `Pkt.Carried` follows
such an access.

Each loop over `m_blk_list` or over the free list is a structural
recursion over that list. The loops of `seek`, `copy`, `fill`, `write` and
`read` go round the same body, which is `walk` and `copyLoop`; they count
down a fuel that `fuel` takes large enough, and running out of it is the
fault `endless`.

Left out: logging, `debug_print`, the destructor (no buffer of the pool is
ever destroyed) and `init`, which nothing calls.
-/
import TinyTcp.Pkt.Manager

namespace TinyTcp.Pkt

open TinyTcp.Lib

/-! ## Iterators -/

/-- A `std::list<PktBlock*>::iterator`. -/
inductive Iter where
  | done
  | at (i : Nat)
  | moved (buf : BufId) (i : Nat)
  | dangling
  deriving DecidableEq, Repr

namespace Iter

/-- After a `push_front` of the list. -/
def pushed : Iter → Iter
  | .at i => .at (i + 1)
  | it => it

/-- After the nodes `[from, from + n)` were erased. -/
def erased (start n : Nat) : Iter → Iter
  | .at i => if i < start then .at i else if i < start + n then .dangling else .at (i - n)
  | it => it

theorem erased_none (it : Iter) (start : Nat) : it.erased start 0 = it := by
  cases it with
  | «at» i =>
    simp only [erased, Nat.add_zero, Nat.sub_zero]
    split
    · rfl
    · rfl
  | done => rfl
  | moved buf i => rfl
  | dangling => rfl

/-- After the list was cleared. -/
def lost : Iter → Iter
  | .at _ => .dangling
  | it => it

/-- After the nodes were put behind the `n` nodes of the packet at `buf`. -/
def spliced (buf : BufId) (n : Nat) : Iter → Iter
  | .at i => .moved buf (n + i)
  | it => it

end Iter

/-- The members of a buffer object; `pos` and `ref` are the bit patterns of the `int32_t`
`m_pos` and of the `atomic_int` `m_ref`. -/
structure PktBuffer where
  capacity : Nat
  blkList : List BlkPtr
  pos : Nat
  curBlk : Iter
  blkOffset : Option Nat
  ref : UInt32
  deriving DecidableEq, Repr

/-- The object after the constructor; the cursor members are not initialised there. -/
def PktBuffer.new : PktBuffer where
  capacity := 0
  blkList := []
  pos := 0
  curBlk := .dangling
  blkOffset := none
  ref := 1

namespace PktBuffer

/-! ## Access to the members -/

def reset (b : PktBuffer) : PktBuffer := { b with capacity := 0, ref := 1 }

def addRef (b : PktBuffer) : PktBuffer := { b with ref := b.ref + 1 }

/-- The pointer `front()->get_data()`: the front block, `none` for an empty list. -/
def getData (b : PktBuffer) : Except Fault (Option PktBlock) :=
  match b.blkList with
  | [] => .ok none
  | none :: _ => .error .nullDeref
  | some blk :: _ => .ok (some blk)

def totalBlkRemain (b : PktBuffer) : Nat := sub32 b.capacity b.pos

def resetAccess (b : PktBuffer) : Except Fault PktBuffer :=
  match b.blkList with
  | [] => .ok { b with pos := 0, curBlk := .done, blkOffset := none }
  | none :: _ => .error .nullDeref
  | some blk :: _ => .ok { b with pos := 0, curBlk := .at 0, blkOffset := some blk.data }

def pushFront (b : PktBuffer) (ptr : BlkPtr) : PktBuffer :=
  { b with blkList := ptr :: b.blkList, curBlk := b.curBlk.pushed }

def pushBack (b : PktBuffer) (ptr : BlkPtr) : PktBuffer :=
  { b with blkList := b.blkList ++ [ptr] }

/-! ## Layout operations -/

/-- The loop of `alloc` that takes blocks from the free list: whether it
got all of them, the blocks in order, and the free list after it. -/
def takeBlocks (blkSize : Nat) (allocFront : Bool) :
    List BlkPtr → Nat → Except Fault (Bool × List PktBlock × List BlkPtr)
  | free, 0 => .ok (true, [], free)
  | [], _ + 1 => .ok (false, [], [])
  | none :: _, _ + 1 => .error .nullDeref
  | some blk :: free, size + 1 => do
      let curSize := min (size + 1) blkSize
      let blk := { blk.reset with
        size := curSize, data := if allocFront then blkSize - curSize else 0 }
      let (ok, blks, free) ← takeBlocks blkSize allocFront free (size + 1 - curSize)
      .ok (ok, blk :: blks, free)

def alloc (m : PktManager) (b : PktBuffer) (size : Nat) (allocFront insertFront : Bool) :
    Except Fault (Bool × PktManager × PktBuffer) := do
  let b := { b with capacity := add32 b.capacity size, ref := 1 }
  let (ok, blks, free) ← takeBlocks m.blkSize allocFront m.pktBlk.items size
  let m := { m with pktBlk := { m.pktBlk with items := free } }
  if !ok then
    .ok (false, m.releaseAll (blks.map some), { b with capacity := sub32 b.capacity size })
  else
    let b :=
      if insertFront then
        if allocFront then (blks.map some).foldl pushFront b
        else (blks.reverse.map some).foldl pushFront b
      else
        if allocFront then (blks.reverse.map some).foldl pushBack b
        else (blks.map some).foldl pushBack b
    let b ← b.resetAccess
    .ok (true, m, b)

/-- `self` is the address `this`, which goes back to the pool of buffers. -/
def free (m : PktManager) (self : BufId) (b : PktBuffer) : PktManager × PktBuffer :=
  let b := { b with ref := b.ref - 1 }
  if b.ref = 0 then
    ((m.releaseAll b.blkList).releasePktbuffer self,
      { b with blkList := [], curBlk := b.curBlk.lost, capacity := 0 })
  else (m, b)

def allocHeader (m : PktManager) (b : PktBuffer) (size : Nat) (isCont : Bool) :
    Except Fault (NetErr × PktManager × PktBuffer) :=
  match b.blkList with
  | [] => .ok (.empty, m, b)
  | none :: _ => .error .nullDeref
  | some first :: rest =>
      let preSize := first.data
      if preSize ≥ size then
        let first := { first with data := first.data - size, size := add32 first.size size }
        .ok (.ok, m, { b with blkList := some first :: rest, capacity := add32 b.capacity size })
      else if isCont then
        if size > m.blkSize then .ok (.size, m, b)
        else do
          let (blk, m) ← m.getPktblock
          match blk with
          -- the null pointer is in the list before it is tested
          | none => .ok (.none, m, b.pushFront none)
          | some blk =>
              let blk := { blk with data := m.blkSize - size, size := size }
              .ok (.ok, m, { b.pushFront (some blk) with capacity := add32 b.capacity size })
      else do
        let first := { first with data := 0, size := add32 first.size preSize }
        let b := { b with blkList := some first :: rest, capacity := add32 b.capacity preSize }
        let (ok, m, b) ← alloc m b (size - preSize) true true
        if ok then .ok (.ok, m, b) else .ok (.none, m, b)

/-- The loop of `remove_header`: the list and the capacity after it, and
the blocks it released, in order. -/
def removeLoop : List BlkPtr → Nat → Nat →
    Except Fault (List BlkPtr × Nat × List BlkPtr)
  | blks, capacity, 0 => .ok (blks, capacity, [])
  | [], _, _ + 1 => .error .emptyList
  | none :: _, _, _ + 1 => .error .nullDeref
  | some blk :: rest, capacity, size + 1 =>
      if size + 1 < blk.size then
        let blk := { blk with data := blk.data + (size + 1), size := blk.size - (size + 1) }
        .ok (some blk :: rest, sub32 capacity (size + 1), [])
      else do
        let (rest, capacity, gone) ← removeLoop rest (sub32 capacity blk.size) (size + 1 - blk.size)
        .ok (rest, capacity, some blk :: gone)

def removeHeader (m : PktManager) (b : PktBuffer) (size : Nat) :
    Except Fault (NetErr × PktManager × PktBuffer) :=
  if b.blkList.length = 0 then .error .assertion
  else do
    let (blks, capacity, gone) ← removeLoop b.blkList b.capacity size
    .ok (.ok, m.releaseAll gone,
      { b with blkList := blks, capacity := capacity, curBlk := b.curBlk.erased 0 gone.length })

/-- The first loop of a shrinking `resize`: it stops at the block with
which `total_size` reaches `size`. The result is the list up to and with
that block, and the list behind it. -/
def findTail (size : Nat) : List BlkPtr → Nat → Except Fault (List BlkPtr × List BlkPtr)
  -- `*it` at the end of the list
  | [], _ => .error .badIterator
  | none :: _, _ => .error .nullDeref
  | some blk :: rest, totalSize =>
      let totalSize := add32 totalSize blk.size
      if totalSize ≥ size then .ok ([some blk], rest)
      else do
        let (kept, rest) ← findTail size rest totalSize
        .ok (some blk :: kept, rest)

/-- The second loop of a shrinking `resize`, over the blocks from `it` to
the end. `it` has moved on when the block to release is taken from it. -/
def dropLoop : PktManager → List BlkPtr → Nat → Except Fault (PktManager × Nat)
  | m, [], capacity => .ok (m, capacity)
  | _, none :: _, _ => .error .nullDeref
  | m, some blk :: rest, capacity =>
      match rest with
      | [] => .error .badIterator
      | ptr :: _ => dropLoop (m.releasePktblock ptr) rest (sub32 capacity blk.size)

/-- The last block of a list and the blocks before it. -/
def splitLast : List BlkPtr → Except Fault (List BlkPtr × PktBlock)
  | [] => .error .emptyList
  | [none] => .error .nullDeref
  | [some blk] => .ok ([], blk)
  | ptr :: ptr' :: rest => do
      let (init, blk) ← splitLast (ptr' :: rest)
      .ok (ptr :: init, blk)

def resize (m : PktManager) (self : BufId) (b : PktBuffer) (size : Nat) :
    Except Fault (NetErr × PktManager × PktBuffer) :=
  if size = b.capacity then .ok (.ok, m, b)
  else if b.capacity = 0 then do
    let (ok, m, b) ← alloc m b size false false
    if ok then .ok (.ok, m, b) else .ok (.mem, m, b)
  else if size > b.capacity then do
    let (init, tail) ← splitLast b.blkList
    let lastSize := tail.getLastSize m.blkSize
    if lastSize ≥ size then
      let tail := { tail with size := add32 tail.size size }
      .ok (.ok, m,
        { b with blkList := init ++ [some tail], capacity := add32 b.capacity size })
    else
      let tail := { tail with size := add32 tail.size lastSize }
      let b := { b with blkList := init ++ [some tail], capacity := add32 b.capacity lastSize }
      let (ok, m, b) ← alloc m b (sub32 size b.capacity) false false
      if ok then .ok (.ok, m, b) else .ok (.mem, m, b)
  else if size = 0 then
    let (m, b) := free m self b
    .ok (.ok, m, b)
  else do
    let (kept, rest) ← findTail size b.blkList 0
    let (m, capacity) ← dropLoop m rest b.capacity
    let (init, tail) ← splitLast kept
    let preListSize := sub32 capacity tail.size
    let tail := { tail with size := sub32 size preListSize }
    .ok (.ok, m,
      { b with
        blkList := init ++ [some tail], capacity := add32 preListSize tail.size
        curBlk := b.curBlk.erased kept.length rest.length })

/-- The manager, this buffer, which lies at `self`, and the other one, which lies at `other`. -/
def mergeBuf (m : PktManager) (self : BufId) (b : PktBuffer) (other : BufId) (buf : PktBuffer) :
    NetErr × PktManager × PktBuffer × PktBuffer :=
  (.ok, m.releasePktbuffer other,
    { b with blkList := b.blkList ++ buf.blkList, capacity := add32 b.capacity buf.capacity },
    { buf with blkList := [], curBlk := buf.curBlk.spliced self b.blkList.length })

/-- `memcpy` and `memset` into a payload, at an offset. -/
def store (mem : List UInt8) (off : Nat) (xs : List UInt8) : Except Fault (List UInt8) :=
  if off + xs.length ≤ mem.length then .ok (splice mem off xs) else .error .outOfBounds

/-- The bytes `[off, off + n)` of a payload or of the caller's memory. -/
def load (mem : List UInt8) (off n : Nat) : Except Fault (List UInt8) :=
  if off + n ≤ mem.length then .ok (slice mem off n) else .error .outOfBounds

/-- The loop of `set_cont_header` over the blocks behind the first one:
the first block and the others after it, and the released blocks. -/
def contLoop : Nat → PktBlock → Nat → List BlkPtr →
    Except Fault (PktBlock × List BlkPtr × List BlkPtr)
  | 0, first, _, blks => .ok (first, blks, [])
  | _ + 1, first, _, [] => .ok (first, [], [])
  | _ + 1, _, _, none :: _ => .error .nullDeref
  | remain + 1, first, ptr, some now :: rest => do
      let curSize := min (remain + 1) now.size
      let bytes ← load now.payload now.data curSize
      let payload ← store first.payload ptr bytes
      let first := { first with payload := payload, size := add32 first.size curSize }
      let now := { now with data := now.data + curSize, size := now.size - curSize }
      if now.size = 0 then
        let (first, rest, gone) ← contLoop (remain + 1 - curSize) first (ptr + curSize) rest
        .ok (first, rest, some now :: gone)
      -- a block that keeps data has given all that was missing
      else .ok (first, some now :: rest, [])

def setContHeader (m : PktManager) (b : PktBuffer) (size : Nat) :
    Except Fault (NetErr × PktManager × PktBuffer) :=
  if size > b.capacity then .ok (.size, m, b)
  else if size > m.blkSize then .ok (.size, m, b)
  else
    match b.blkList with
    | [] => .error .emptyList
    | none :: _ => .error .nullDeref
    | some first :: rest =>
        let firstSize := first.size
        if size ≤ firstSize then .ok (.ok, m, b)
        else do
          let bytes ← load first.payload first.data firstSize
          let payload ← store first.payload 0 bytes
          let first := { first with payload := payload, data := 0 }
          let (first, rest, gone) ← contLoop (size - firstSize) first firstSize rest
          .ok (.ok, m.releaseAll gone,
            { b with blkList := some first :: rest, curBlk := b.curBlk.erased 1 gone.length })

/-! ## The cursor -/

/-- `*m_cur_blk`, for a use of its members. -/
def derefCur (b : PktBuffer) : Except Fault PktBlock :=
  match b.curBlk with
  | .at i =>
      match b.blkList[i]? with
      | some (some blk) => .ok blk
      | some none => .error .nullDeref
      | none => .error .badIterator
  | .moved .. => .error .elsewhere
  | _ => .error .badIterator

def offset (b : PktBuffer) : Except Fault Nat :=
  match b.blkOffset with
  | some off => .ok off
  | none => .error .nullDeref

def curBlkRemainSize (b : PktBuffer) : Except Fault Nat :=
  if b.curBlk = .done then .ok 0
  else do
    let blk ← b.derefCur
    let off ← b.offset
    .ok (sub32 (blk.data + blk.size) off)

/-- `++m_cur_blk`, with the new `m_blk_offset`. -/
def nextBlk (b : PktBuffer) : Except Fault PktBuffer :=
  match b.curBlk with
  | .at i =>
      match b.blkList[i + 1]? with
      | some (some blk) => .ok { b with curBlk := .at (i + 1), blkOffset := some blk.data }
      | some none => .error .nullDeref
      | none => .ok { b with curBlk := .done, blkOffset := none }
  | .moved .. => .error .elsewhere
  | _ => .error .badIterator

def moveForward (b : PktBuffer) (size : Nat) : Except Fault PktBuffer := do
  let blk ← b.derefCur
  let off ← b.offset
  let b := { b with pos := add32 b.pos size, blkOffset := some (off + size) }
  if off + size ≥ blk.data + blk.size then b.nextBlk else .ok b

/-- The bytes at `m_blk_offset`. No byte is read through a null pointer when `n` is `0`. -/
def loadCur (b : PktBuffer) (n : Nat) : Except Fault (List UInt8) :=
  if n = 0 then .ok []
  else do
    let blk ← b.derefCur
    let off ← b.offset
    load blk.payload off n

/-- `xs` written at `m_blk_offset`. -/
def storeCur (b : PktBuffer) (xs : List UInt8) : Except Fault PktBuffer :=
  if xs.length = 0 then .ok b
  else do
    let blk ← b.derefCur
    let off ← b.offset
    let payload ← store blk.payload off xs
    match b.curBlk with
    | .at i => .ok { b with blkList := b.blkList.set i (some { blk with payload := payload }) }
    | .moved .. => .error .elsewhere
    | _ => .error .badIterator

/-- Rounds that are enough for a walk over `size` bytes. -/
def fuel (b : PktBuffer) (size : Nat) : Nat := size + b.blkList.length + 1

/-- The loop `while (size) { c = min(size, cur_blk_remain_size()); ...;
move_forward(c); size -= c; }`. `touch s c` is the body's own access to
the next `c` bytes, with the caller's side of it in `s`. -/
def walk {σ : Type} (touch : σ → Nat → PktBuffer → Except Fault (σ × PktBuffer)) :
    Nat → Nat → σ → PktBuffer → Except Fault (σ × PktBuffer)
  | _, 0, s, b => .ok (s, b)
  | 0, _ + 1, _, _ => .error .endless
  | fuel + 1, size + 1, s, b => do
      let remain ← b.curBlkRemainSize
      let c := min (size + 1) remain
      let (s, b) ← touch s c b
      let b ← b.moveForward c
      walk touch fuel (size + 1 - c) s b

def seek (b : PktBuffer) (offset : Nat) : Except Fault (NetErr × PktBuffer) :=
  if b.pos = offset then .ok (.ok, b)
  else if offset > b.capacity then .ok (.size, b)
  else do
    let (b, moveBytes) ←
      if offset < b.pos then
        match b.blkList with
        | [] => .error .badIterator
        | none :: _ => .error .nullDeref
        | some blk :: _ =>
            .ok ({ b with curBlk := .at 0, blkOffset := some blk.data, pos := 0 }, offset)
      else .ok (b, sub32 offset b.pos)
    let (_, b) ← walk (fun (_ : Unit) _ b => .ok ((), b)) (b.fuel moveBytes) moveBytes () b
    .ok (.ok, b)

/-- `dest` is this buffer, `src` the other one. -/
def copyLoop : Nat → Nat → PktBuffer → PktBuffer → Except Fault (PktBuffer × PktBuffer)
  | _, 0, dest, src => .ok (dest, src)
  | 0, _ + 1, _, _ => .error .endless
  | fuel + 1, size + 1, dest, src => do
      let destRemain ← dest.curBlkRemainSize
      let srcRemain ← src.curBlkRemainSize
      let copySize := min (size + 1) (min destRemain srcRemain)
      let bytes ← src.loadCur copySize
      let dest ← dest.storeCur bytes
      let dest ← dest.moveForward copySize
      let src ← src.moveForward copySize
      copyLoop fuel (size + 1 - copySize) dest src

def copy (dest src : PktBuffer) (size : Nat) : Except Fault (NetErr × PktBuffer × PktBuffer) :=
  if dest.totalBlkRemain < size ∨ src.totalBlkRemain < size then .ok (.size, dest, src)
  else do
    let (dest, src) ← copyLoop (dest.fuel size + src.blkList.length) size dest src
    .ok (.ok, dest, src)

def fill (b : PktBuffer) (v : UInt8) (size : Nat) : Except Fault (NetErr × PktBuffer) :=
  if size = 0 then .ok (.param, b)
  else if b.totalBlkRemain < size then .ok (.size, b)
  else do
    let (_, b) ← walk (fun (_ : Unit) c b => do .ok ((), ← b.storeCur (List.replicate c v)))
      (b.fuel size) size () b
    .ok (.ok, b)

/-- `src` is the caller's memory from the pointer on, `none` for `nullptr`. -/
def write (b : PktBuffer) (src : Option (List UInt8)) (size : Nat) :
    Except Fault (NetErr × PktBuffer) :=
  match src with
  | none => .ok (.param, b)
  | some src =>
      if size = 0 then .ok (.param, b)
      else if b.totalBlkRemain < size then .ok (.size, b)
      else do
        let (_, b) ← walk
          (fun (src : List UInt8) c b => do
            let bytes ← load src 0 c
            let b ← b.storeCur bytes
            .ok (src.drop c, b))
          (b.fuel size) size src b
        .ok (.ok, b)

/-- `dest` is the caller's memory from the pointer on; it comes back with
the bytes read written over its first `size` bytes. -/
def read (b : PktBuffer) (dest : Option (List UInt8)) (size : Nat) :
    Except Fault (NetErr × Option (List UInt8) × PktBuffer) :=
  match dest with
  | none => .ok (.param, none, b)
  | some dest =>
      if size = 0 then .ok (.param, some dest, b)
      else if b.totalBlkRemain < size then .ok (.size, some dest, b)
      else do
        let ((_, dest), b) ← walk
          (fun (s : Nat × List UInt8) c b => do
            let bytes ← b.loadCur c
            let dest ← store s.2 s.1 bytes
            .ok ((s.1 + c, dest), b))
          (b.fuel size) size (0, dest) b
        .ok (.ok, some dest, b)

end PktBuffer

end TinyTcp.Pkt
