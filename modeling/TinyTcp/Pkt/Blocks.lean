/-
TinyTcp.Pkt.Blocks — what a list of blocks holds, and when a buffer
represents it.

`content` is the concatenation of the data windows and `sizes` the sum of
the block sizes. `b.Holds B blks` is the representation invariant of one
buffer: its list is `blks`, every block has a window of at least one byte
inside a payload of `B` bytes, and `m_capacity` is the sum of the sizes.
`b.bytes` reads the contents off the buffer itself and agrees with
`content blks` whenever `b.Holds B blks`.

`At cur off blks p` says that an iterator and an offset name byte `p` of
the contents, and `Cursor` that the cursor members of a buffer do.
-/
import TinyTcp.Pkt.Buffer
import Mathlib.Algebra.GroupWithZero.Nat
import Mathlib.Data.List.ReduceOption

namespace TinyTcp.Pkt

open TinyTcp.Lib

/-! ## Lists of blocks -/

def sizes (blks : List PktBlock) : Nat := (blks.map PktBlock.size).sum

def content (blks : List PktBlock) : List UInt8 := blks.flatMap PktBlock.window

def addrs (blks : List PktBlock) : List Nat := blks.map PktBlock.addr

@[simp] theorem sizes_nil : sizes [] = 0 := rfl

@[simp] theorem sizes_cons (blk : PktBlock) (blks : List PktBlock) :
    sizes (blk :: blks) = blk.size + sizes blks := by simp [sizes]

@[simp] theorem sizes_append (l m : List PktBlock) : sizes (l ++ m) = sizes l + sizes m := by
  simp [sizes]

@[simp] theorem sizes_reverse (l : List PktBlock) : sizes l.reverse = sizes l := by
  induction l with
  | nil => rfl
  | cons blk l ih => simp [ih, Nat.add_comm]

@[simp] theorem content_nil : content [] = [] := rfl

@[simp] theorem content_cons (blk : PktBlock) (blks : List PktBlock) :
    content (blk :: blks) = blk.window ++ content blks := by simp [content]

@[simp] theorem content_append (l m : List PktBlock) :
    content (l ++ m) = content l ++ content m := by simp [content]

@[simp] theorem addrs_nil : addrs [] = [] := rfl

@[simp] theorem addrs_cons (blk : PktBlock) (blks : List PktBlock) :
    addrs (blk :: blks) = blk.addr :: addrs blks := rfl

@[simp] theorem addrs_append (l m : List PktBlock) : addrs (l ++ m) = addrs l ++ addrs m := by
  simp [addrs]

/-- The contents have as many bytes as the sizes say. -/
theorem content_length {B : Nat} {blks : List PktBlock} (h : ∀ blk ∈ blks, blk.Ok B) :
    (content blks).length = sizes blks := by
  induction blks with
  | nil => rfl
  | cons blk blks ih =>
    have hblk : blk.Ok B := h blk List.mem_cons_self
    have hrest : (content blks).length = sizes blks :=
      ih fun b hb => h b (List.mem_cons_of_mem _ hb)
    rw [content_cons, List.length_append, hblk.window_length, hrest, sizes_cons]

theorem sizes_le {B : Nat} {blks : List PktBlock} (h : ∀ blk ∈ blks, blk.size ≤ B) :
    sizes blks ≤ blks.length * B := by
  induction blks with
  | nil => exact Nat.zero_le _
  | cons blk blks ih =>
    have hblk := h blk List.mem_cons_self
    have hrest := ih fun b hb => h b (List.mem_cons_of_mem _ hb)
    rw [sizes_cons, List.length_cons, Nat.succ_mul]
    omega

theorem sizes_pos {B : Nat} {blks : List PktBlock} (h : ∀ blk ∈ blks, blk.Ok B)
    (hne : blks ≠ []) : 0 < sizes blks := by
  cases blks with
  | nil => exact absurd rfl hne
  | cons blk blks =>
    have hpos := (h blk List.mem_cons_self).pos
    rw [sizes_cons]
    omega

/-! ## Buffers -/

namespace PktBuffer

/-- The contents of a buffer. -/
def bytes (b : PktBuffer) : List UInt8 := content b.blkList.reduceOption

/-- The representation invariant of a buffer with payloads of `B` bytes. -/
structure Holds (B : Nat) (b : PktBuffer) (blks : List PktBlock) : Prop where
  list : b.blkList = blks.map some
  ok : ∀ blk ∈ blks, blk.Ok B
  capacity : b.capacity = sizes blks
  lt : sizes blks < 2 ^ 32

theorem reduceOption_map_some (blks : List PktBlock) : (blks.map some).reduceOption = blks := by
  induction blks with
  | nil => rfl
  | cons blk blks ih => rw [List.map_cons, List.reduceOption_cons_of_some, ih]

/-- A list without null pointers is the list of its blocks. -/
theorem map_some_injective {blks blks' : List PktBlock} (h : blks.map some = blks'.map some) :
    blks = blks' := by
  rw [← reduceOption_map_some blks, h, reduceOption_map_some]

theorem none_not_mem_map (blks : List PktBlock) : (none : BlkPtr) ∉ blks.map some := by
  simp

theorem bytes_of_list {b : PktBuffer} {blks : List PktBlock} (h : b.blkList = blks.map some) :
    b.bytes = content blks := by
  rw [bytes, h, reduceOption_map_some]

theorem Holds.bytes {B : Nat} {b : PktBuffer} {blks : List PktBlock} (h : b.Holds B blks) :
    b.bytes = content blks := bytes_of_list h.list

theorem Holds.bytes_length {B : Nat} {b : PktBuffer} {blks : List PktBlock}
    (h : b.Holds B blks) : b.bytes.length = b.capacity := by
  rw [h.bytes, content_length h.ok, h.capacity]

theorem Holds.capacity_lt {B : Nat} {b : PktBuffer} {blks : List PktBlock}
    (h : b.Holds B blks) : b.capacity < 2 ^ 32 := by
  rw [h.capacity]
  exact h.lt

theorem Holds.capacity_eq_zero_iff {B : Nat} {b : PktBuffer} {blks : List PktBlock}
    (h : b.Holds B blks) : b.capacity = 0 ↔ blks = [] := by
  constructor
  · intro hzero
    by_contra hne
    have hpos := sizes_pos h.ok hne
    rw [← h.capacity] at hpos
    omega
  · intro hnil
    rw [h.capacity, hnil, sizes_nil]

theorem Holds.exists_last {B : Nat} {b : PktBuffer} {blks : List PktBlock} (h : b.Holds B blks)
    (hzero : b.capacity ≠ 0) : ∃ init tail, blks = init ++ [tail] := by
  have hne : blks ≠ [] := fun hnil => hzero (h.capacity_eq_zero_iff.mpr hnil)
  exact ⟨blks.dropLast, blks.getLast hne, (List.dropLast_append_getLast hne).symm⟩

/-! ## The cursor -/

/-- The iterator and the offset name byte `p` of the contents of `blks`, or the end. -/
inductive At (cur : Iter) (off : Option Nat) (blks : List PktBlock) : Nat → Prop where
  | inside (pre : List PktBlock) (blk : PktBlock) (post : List PktBlock) (k : Nat)
      (split : blks = pre ++ blk :: post) (lt : k < blk.size)
      (hcur : cur = .at pre.length) (hoff : off = some (blk.data + k)) :
      At cur off blks (sizes pre + k)
  | atEnd (hcur : cur = .done) (hoff : off = none) : At cur off blks (sizes blks)

theorem At.of_inside {cur : Iter} {off : Option Nat} {blks pre post : List PktBlock}
    {blk : PktBlock} {k p : Nat} (split : blks = pre ++ blk :: post) (lt : k < blk.size)
    (hcur : cur = .at pre.length) (hoff : off = some (blk.data + k)) (hp : p = sizes pre + k) :
    At cur off blks p := by
  rw [hp]
  exact .inside pre blk post k split lt hcur hoff

theorem At.of_end {cur : Iter} {off : Option Nat} {blks : List PktBlock} {p : Nat}
    (hcur : cur = .done) (hoff : off = none) (hp : p = sizes blks) : At cur off blks p := by
  rw [hp]
  exact .atEnd hcur hoff

theorem At.le {cur : Iter} {off : Option Nat} {blks : List PktBlock} {p : Nat}
    (h : At cur off blks p) : p ≤ sizes blks := by
  cases h with
  | inside pre blk post k split lt =>
    rw [split, sizes_append, sizes_cons]
    omega
  | atEnd => exact Nat.le_refl _

/-- Before the end there is a current block. -/
theorem At.exists_inside {cur : Iter} {off : Option Nat} {blks : List PktBlock} {p : Nat}
    (h : At cur off blks p) (hlt : p < sizes blks) :
    ∃ pre blk post k, blks = pre ++ blk :: post ∧ k < blk.size ∧ cur = .at pre.length ∧
      off = some (blk.data + k) ∧ p = sizes pre + k := by
  cases h with
  | inside pre blk post k split lt hcur hoff => exact ⟨pre, blk, post, k, split, lt, hcur, hoff, rfl⟩
  | atEnd => exact absurd hlt (Nat.lt_irrefl _)

/-- At the end the iterator is `end()`. -/
theorem At.done_of_end {cur : Iter} {off : Option Nat} {blks : List PktBlock}
    (h : At cur off blks (sizes blks)) : cur = .done := by
  generalize hp : sizes blks = p at h
  cases h with
  | inside pre blk post k split lt =>
    rw [split, sizes_append, sizes_cons] at hp
    omega
  | atEnd hcur => exact hcur

/-- `b` with the cursor at its first block, `blks` being its blocks. -/
def rewound (b : PktBuffer) (blks : List PktBlock) : PktBuffer :=
  { b with
    pos := 0, curBlk := if blks.isEmpty then .done else .at 0
    blkOffset := blks.head?.map PktBlock.data }

theorem resetAccess_eq {b : PktBuffer} {blks : List PktBlock} (h : b.blkList = blks.map some) :
    b.resetAccess = .ok (b.rewound blks) := by
  cases blks with
  | nil => simp [resetAccess, rewound, h]
  | cons blk blks => simp [resetAccess, rewound, h]

theorem rewound_at {B : Nat} {blks : List PktBlock} (h : ∀ blk ∈ blks, blk.Ok B)
    (b : PktBuffer) : At (b.rewound blks).curBlk (b.rewound blks).blkOffset blks 0 := by
  cases blks with
  | nil => exact .atEnd rfl rfl
  | cons blk blks =>
    have hpos : 0 < blk.size := (h blk List.mem_cons_self).pos
    exact .inside [] blk blks 0 rfl hpos rfl rfl

theorem Holds.rewound {B : Nat} {b : PktBuffer} {blks : List PktBlock} (h : b.Holds B blks) :
    (b.rewound blks).Holds B blks :=
  ⟨h.list, h.ok, h.capacity, h.lt⟩

/-- The representation invariant with a cursor at byte `p`. `m_pos` is an
`int32_t`, so the contents stay below `2 ^ 31` bytes. -/
structure Cursor (B : Nat) (b : PktBuffer) (blks : List PktBlock) (p : Nat) : Prop where
  holds : b.Holds B blks
  lt : sizes blks < 2 ^ 31
  pos : b.pos = p
  here : At b.curBlk b.blkOffset blks p

theorem Cursor.le {B : Nat} {b : PktBuffer} {blks : List PktBlock} {p : Nat}
    (h : b.Cursor B blks p) : p ≤ b.capacity := by
  rw [h.holds.capacity]
  exact h.here.le

theorem Holds.cursor_rewound {B : Nat} {b : PktBuffer} {blks : List PktBlock}
    (h : b.Holds B blks) (hlt : sizes blks < 2 ^ 31) : (b.rewound blks).Cursor B blks 0 :=
  ⟨h.rewound, hlt, rfl, rewound_at h.ok b⟩

end PktBuffer

end TinyTcp.Pkt
