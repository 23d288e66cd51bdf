/-
TinyTcp.Pkt.Manager — `PktBlock` and `PktManager` of `src/net/pktbuf.h` and
`src/net/pktbuf.cc`, with the error codes of `src/net/net_err.h`.

A block is a value: its place in the storage of the pool (`addr`), the
members `m_size` and `m_data` (as an offset into the payload) and the
bytes of the payload. Whoever holds the pointer in the program holds the
value here, so a block changes only through its holder; that no block has
two holders is what the layout invariant proves (`addr` tells blocks
apart). A `PktBlock*` is `BlkPtr`, with `none` for `nullptr`.

`uint32_t` values are natural numbers and their arithmetic goes through
`add32` and `sub32`. What C++ leaves undefined, and a failed assertion,
is a `Fault`, in the `Except` monad.

The two pools are `MemBlock`s, queues of free objects; `Fifo` is such a
queue with each operation one step. Left out: logging, and the
construction of the pools.
-/
import TinyTcp.Lib.Fifo
import TinyTcp.Lib.FlatFile
import Mathlib.Algebra.Group.Nat.Defs

namespace TinyTcp.Pkt

open TinyTcp.Lib

/-! ## Faults, error codes, machine arithmetic -/

/-- How a call can go wrong without returning; `elsewhere` is an access that one packet alone does
not tell the result of. -/
inductive Fault where
  | nullDeref
  | badIterator
  | elsewhere
  | emptyList
  | outOfBounds
  | assertion
  | endless
  deriving DecidableEq, Repr

inductive NetErr where
  | sys | mem | full | timeout | size | empty | none | param | state | io | ok
  deriving DecidableEq, Repr

/-- The value of the `int8_t` enumeration. -/
def NetErr.code : NetErr → Int
  | sys => -128
  | mem => -127
  | full => -126
  | timeout => -125
  | size => -124
  | empty => -123
  | none => -122
  | param => -121
  | state => -120
  | io => -119
  | ok => 0

/-- The callers' test `(int8_t)err < 0`. -/
def NetErr.isErr (e : NetErr) : Bool := e.code < 0

def wrapAdd (w a b : Nat) : Nat := (a + b) % 2 ^ w

def wrapSub (w a b : Nat) : Nat := (a + (2 ^ w - b % 2 ^ w)) % 2 ^ w

abbrev add32 (a b : Nat) : Nat := wrapAdd 32 a b

abbrev sub32 (a b : Nat) : Nat := wrapSub 32 a b

theorem wrapAdd_eq {w a b : Nat} (h : a + b < 2 ^ w) : wrapAdd w a b = a + b :=
  Nat.mod_eq_of_lt h

theorem wrapSub_of_le {w a b : Nat} (hle : b ≤ a) : wrapSub w a b = (a - b) % 2 ^ w := by
  have hb : b % 2 ^ w < 2 ^ w := Nat.mod_lt _ (Nat.two_pow_pos w)
  have hsum : a + (2 ^ w - b % 2 ^ w) = a - b + 2 ^ w * (b / 2 ^ w + 1) := by
    have hdiv := Nat.mod_add_div b (2 ^ w)
    rw [Nat.mul_add]
    omega
  rw [wrapSub, hsum, Nat.add_mul_mod_self_left]

theorem wrapSub_eq {w a b : Nat} (hle : b ≤ a) (h : a - b < 2 ^ w) : wrapSub w a b = a - b := by
  rw [wrapSub_of_le hle, Nat.mod_eq_of_lt h]

/-- Taking back what was added. -/
theorem wrapSub_wrapAdd {w a : Nat} (h : a < 2 ^ w) (b : Nat) : wrapSub w (wrapAdd w a b) b = a := by
  have hmod : wrapSub w (wrapAdd w a b) b = wrapSub w (a + b) b := by
    simp only [wrapSub, wrapAdd, Nat.mod_add_mod]
  rw [hmod, wrapSub_eq (Nat.le_add_left b a) (by omega)]
  omega

/-- A difference below zero wraps around. -/
theorem wrapSub_of_lt {w a b : Nat} (hlt : a < b) (hb : b < 2 ^ w) :
    wrapSub w a b = 2 ^ w - (b - a) := by
  rw [wrapSub, Nat.mod_eq_of_lt hb, Nat.mod_eq_of_lt (by omega)]
  omega

/-- Adding what is missing, whether it wraps around or not. -/
theorem wrapAdd_wrapSub {w a b : Nat} (ha : a < 2 ^ w) (hb : b < 2 ^ w) :
    wrapAdd w a (wrapSub w b a) = b := by
  have hsum : a + (b + (2 ^ w - a)) = b + 2 ^ w := by omega
  rw [wrapAdd, wrapSub, Nat.add_mod_mod, Nat.mod_eq_of_lt ha, hsum, Nat.add_mod_right,
    Nat.mod_eq_of_lt hb]

@[simp] theorem ok_bind {ε α β : Type} (a : α) (f : α → Except ε β) :
    (Except.ok a >>= f) = f a := rfl

@[simp] theorem error_bind {ε α β : Type} (e : ε) (f : α → Except ε β) :
    (Except.error e >>= f) = Except.error e := rfl

/-- A computation that returns has returned from each of its parts. -/
theorem bind_eq_ok {ε α β : Type} {x : Except ε α} {f : α → Except ε β} {r : β} :
    (x >>= f) = .ok r ↔ ∃ a, x = .ok a ∧ f a = .ok r := by
  cases x with
  | ok a => simp
  | error e => simp

theorem eq_ok_of_toOption {ε α : Type} {x : Except ε α} {a : α} (h : x.toOption = some a) :
    x = .ok a := by
  cases x with
  | ok b => rw [Option.some.inj h]
  | error e => cases h

/-! ## Blocks -/

structure PktBlock where
  addr : Nat
  size : Nat
  data : Nat
  payload : List UInt8
  deriving DecidableEq, Repr

abbrev BlkPtr := Option PktBlock

namespace PktBlock

def reset (blk : PktBlock) : PktBlock := { blk with data := 0, size := 0 }

/-- `get_last_size` for payloads of `blkSize` bytes, in `uint64_t`. -/
def getLastSize (blkSize : Nat) (blk : PktBlock) : Nat := wrapSub 64 blkSize (blk.data + blk.size)

/-- The data window `[m_data, m_data + m_size)`. -/
def window (blk : PktBlock) : List UInt8 := slice blk.payload blk.data blk.size

/-- A block in a buffer: it holds data, and its window lies in its payload. -/
structure Ok (blkSize : Nat) (blk : PktBlock) : Prop where
  pos : 1 ≤ blk.size
  fits : blk.data + blk.size ≤ blkSize
  payload : blk.payload.length = blkSize

instance (blkSize : Nat) (blk : PktBlock) : Decidable (blk.Ok blkSize) :=
  decidable_of_iff (1 ≤ blk.size ∧ blk.data + blk.size ≤ blkSize ∧ blk.payload.length = blkSize)
    ⟨fun ⟨a, b, c⟩ => ⟨a, b, c⟩, fun ⟨a, b, c⟩ => ⟨a, b, c⟩⟩

theorem Ok.window_length {blkSize : Nat} {blk : PktBlock} (h : blk.Ok blkSize) :
    blk.window.length = blk.size :=
  length_slice_of_le (by rw [h.payload]; exact h.fits)

theorem Ok.size_le {blkSize : Nat} {blk : PktBlock} (h : blk.Ok blkSize) : blk.size ≤ blkSize :=
  Nat.le_trans (Nat.le_add_left _ _) h.fits

theorem Ok.getLastSize {blkSize : Nat} {blk : PktBlock} (h : blk.Ok blkSize)
    (hb : blkSize < 2 ^ 64) : blk.getLastSize blkSize = blkSize - (blk.data + blk.size) :=
  wrapSub_eq h.fits (by omega)

end PktBlock

/-! ## The manager -/

abbrev BufId := Nat

/-- `g_pktbuf_blk_size->value()` and the two pools. -/
structure PktManager where
  blkSize : Nat
  pktBlk : Fifo BlkPtr
  pktBuf : Fifo BufId
  deriving DecidableEq

namespace PktManager

def getPktblock (m : PktManager) : Except Fault (BlkPtr × PktManager) :=
  match m.pktBlk.pop with
  | none => .ok (none, m)
  | some (none, _) => .error .nullDeref
  | some (some blk, pool) => .ok (some blk.reset, { m with pktBlk := pool })

def releasePktblock (m : PktManager) (ptr : BlkPtr) : PktManager :=
  { m with pktBlk := (m.pktBlk.push ptr).2 }

def releasePktbuffer (m : PktManager) (ptr : BufId) : PktManager :=
  { m with pktBuf := (m.pktBuf.push ptr).2 }

/-- Releases in the order of the list. -/
def releaseAll (m : PktManager) (ptrs : List BlkPtr) : PktManager :=
  { m with pktBlk := m.pktBlk.pushAll ptrs }

@[simp] theorem releaseAll_nil (m : PktManager) : m.releaseAll [] = m := rfl

theorem releaseAll_cons (m : PktManager) (ptr : BlkPtr) (ptrs : List BlkPtr) :
    m.releaseAll (ptr :: ptrs) = (m.releasePktblock ptr).releaseAll ptrs := rfl

/-- The free list holds exactly these blocks, each with a full payload. -/
structure Pool (m : PktManager) (free : List PktBlock) : Prop where
  items : m.pktBlk.items = free.map some
  payload : ∀ blk ∈ free, blk.payload.length = m.blkSize

/-- Releasing with room for all the blocks appends them to the free list. -/
theorem releaseAll_eq {m : PktManager} {free blks : List PktBlock} (hpool : m.Pool free)
    (hroom : free.length + blks.length ≤ m.pktBlk.cap) :
    m.releaseAll (blks.map some) =
      { m with pktBlk := { m.pktBlk with items := (free ++ blks).map some } } := by
  have hlen : m.pktBlk.items.length + (blks.map some).length ≤ m.pktBlk.cap := by
    rw [hpool.items]
    simpa using hroom
  rw [releaseAll, Fifo.pushAll_of_room hlen, hpool.items, List.map_append]

end PktManager

end TinyTcp.Pkt
