/-
TinyTcp.Mem.MemBlock — the memory pool `MemBlock` of `src/net/memblock.h`
and `src/net/memblock.cc`, in the hands of one thread.

A pointer is its address. The constructor allocates one array for as many
blocks as the queue has slots and pushes all of them; the queue holds one
element less than it has slots, so the last push fails and one block is
never handed out. `alloc` and `free` are a pop and a push of the ring queue.

`memBlock_correct` is about every sequence of the two. It goes through a
`Pool` of the blocks that were pushed: `Holds` relates the ring to the
pool's list, and a block that is given back fits because there are not more
blocks than the ring takes. Left out: the `timeout_ms` of `alloc`, which has
no effect, and the destructor.
-/
import TinyTcp.Lib.Pool
import TinyTcp.Ring.Sequential
import Mathlib.Data.List.Nodup
import Mathlib.Order.Bounds.Basic

namespace TinyTcp.Mem

open TinyTcp.Lib TinyTcp.Ring

/-! ## The code -/

/-- Why a constructor does not return: `std::out_of_range`, an `int` that overflows (which is
undefined), an array of negative length, or a failed assertion. -/
inductive Refusal where
  | outOfRange
  | overflow
  | badLength
  | assertion
  deriving DecidableEq, Repr

/-- `bytes` is the length of the array at `block`. -/
structure MemBlock where
  blockSize : Int32
  block : Nat
  bytes : Nat
  queue : LockFreeRingQueue Nat

/-- The product of two `int`. -/
def mulInt (a b : Int32) : Except Refusal Int32 :=
  if -2 ^ 31 ≤ a.toInt * b.toInt ∧ a.toInt * b.toInt < 2 ^ 31 then .ok (a * b)
  else .error .overflow

namespace MemBlock

/-- The loop of the constructor, for so many rounds; the result of `push` is not used. -/
def pushBlocks (queue : LockFreeRingQueue Nat) (blockPtr : Nat) (blockSize : Nat) :
    Nat → LockFreeRingQueue Nat
  | 0 => queue
  | rounds + 1 => pushBlocks (queue.push blockPtr).2 (blockPtr + blockSize) blockSize rounds

/-- The constructor; `place` is where the array is allocated. -/
def create (place : Nat) (blockSize capacity : Int32) : Except Refusal MemBlock :=
  if capacity.toUInt32 = 0 then .error .outOfRange
  else do
    let queue := LockFreeRingQueue.create capacity.toUInt32
    let capacity := queue.size.toInt32
    let bytes ← mulInt blockSize capacity
    if bytes.toInt < 0 then .error .badLength
    else
      .ok {
        blockSize := blockSize
        block := place
        bytes := bytes.toInt.toNat
        queue := pushBlocks queue place blockSize.toInt.toNat capacity.toInt.toNat }

variable (m : MemBlock)

def alloc : Option Nat × MemBlock :=
  (m.queue.pop.1, { m with queue := m.queue.pop.2 })

def free (ptr : Nat) : Bool × MemBlock :=
  ((m.queue.push ptr).1, { m with queue := (m.queue.push ptr).2 })

def size : Int32 := m.queue.length.toInt32

end MemBlock

/-! ## Sequences of calls -/

/-- A pool and the pointers its callers have. -/
structure Users where
  mem : MemBlock
  live : List Nat

inductive Act where
  | alloc
  | free (ptr : Nat)
  deriving DecidableEq

/-- Callers free what they have allocated and not freed. -/
def Users.next (s : Users) : Act → Option Users
  | .alloc =>
      match s.mem.alloc with
      | (some ptr, mem) => some { mem := mem, live := ptr :: s.live }
      | (none, mem) => some { mem := mem, live := s.live }
  | .free ptr =>
      if ptr ∈ s.live then some { mem := (s.mem.free ptr).2, live := s.live.erase ptr } else none

/-- The first `n` blocks of an array. -/
def blocksAt (place : Nat) (blockSize n : Nat) : List Nat :=
  (List.range n).map fun i => place + i * blockSize

/-- A pool of `total` blocks, some of them live, that works. -/
structure Correct (place : Nat) (blockSize total : Nat) (s : Users) : Prop where
  returned : ∀ ptr, s.mem.alloc.1 = some ptr → ∃ i < total, ptr = place + i * blockSize
  disjoint : s.live.Pairwise fun p q => p + blockSize ≤ q ∨ q + blockSize ≤ p
  inside : ∀ ptr ∈ s.live, s.mem.block ≤ ptr ∧ ptr + blockSize ≤ s.mem.block + s.mem.bytes
  alloc : s.mem.alloc.1 = none ↔ s.live.length = total
  free : ∀ ptr ∈ s.live, (s.mem.free ptr).1 = true
  size : s.mem.size.toInt = total - s.live.length

/-! ## The blocks -/

@[simp] theorem length_blocksAt (place : Nat) (blockSize n : Nat) :
    (blocksAt place blockSize n).length = n := by
  simp [blocksAt]

theorem mem_blocksAt {place ptr : Nat} {blockSize n : Nat} :
    ptr ∈ blocksAt place blockSize n ↔ ∃ i < n, ptr = place + i * blockSize := by
  simp [blocksAt, eq_comm]

theorem blocksAt_succ (place : Nat) (blockSize n : Nat) :
    blocksAt place blockSize (n + 1) = place :: blocksAt (place + blockSize) blockSize n := by
  simp only [blocksAt, List.range_succ_eq_map, List.map_cons, List.map_map, Nat.zero_mul,
    Nat.add_zero]
  refine congrArg _ (List.map_congr_left fun i _ => ?_)
  show place + (i + 1) * blockSize = place + blockSize + i * blockSize
  rw [Nat.succ_mul]
  omega

theorem nodup_blocksAt {blockSize : Nat} (h : 1 ≤ blockSize) (place : Nat) (n : Nat) :
    (blocksAt place blockSize n).Nodup := by
  refine List.Nodup.map ?_ List.nodup_range
  intro i j heq
  exact Nat.eq_of_mul_eq_mul_right h (Nat.add_left_cancel heq)

/-- Different blocks of an array do not overlap. -/
theorem blocks_apart {place : Nat} {blockSize i j : Nat} (hne : i ≠ j) :
    place + i * blockSize + blockSize ≤ place + j * blockSize ∨
      place + j * blockSize + blockSize ≤ place + i * blockSize := by
  rcases Nat.lt_or_gt_of_ne hne with hlt | hlt
  · left
    have := Nat.mul_le_mul_right blockSize hlt
    rw [Nat.succ_mul] at this
    omega
  · right
    have := Nat.mul_le_mul_right blockSize hlt
    rw [Nat.succ_mul] at this
    omega

/-! ## The constructor -/

theorem represents_pushBlocks {q : LockFreeRingQueue Nat} {f : Fifo Nat} (h : Represents q f)
    (place : Nat) (blockSize n : Nat) :
    Represents (MemBlock.pushBlocks q place blockSize n)
      (f.pushAll (blocksAt place blockSize n)) := by
  induction n generalizing q f place with
  | zero => exact h
  | succ n ih =>
    rw [blocksAt_succ, Fifo.pushAll_cons]
    exact ih (h.push place).2 (place + blockSize)

/-- The last of one block too many does not get in. -/
theorem pushAll_blocksAt (place blockSize : Nat) {n : Nat} (h : 1 ≤ n) :
    Fifo.pushAll ⟨n - 1, []⟩ (blocksAt place blockSize n) =
      ⟨n - 1, blocksAt place blockSize (n - 1)⟩ := by
  have hsplit : blocksAt place blockSize n =
      blocksAt place blockSize (n - 1) ++ [place + (n - 1) * blockSize] := by
    obtain ⟨k, rfl⟩ := Nat.exists_eq_add_of_le' h
    simp [blocksAt, List.range_succ]
  rw [hsplit, Fifo.pushAll, List.foldl_append]
  show (Fifo.push (Fifo.pushAll ⟨n - 1, []⟩ (blocksAt place blockSize (n - 1))) _).2 = _
  rw [Fifo.pushAll_of_room (by simp), Fifo.push_of_full (by simp)]
  rfl

theorem mulInt_eq {a b : Int32} (hlow : -2 ^ 31 ≤ a.toInt * b.toInt)
    (h : a.toInt * b.toInt < 2 ^ 31) : mulInt a b = .ok (a * b) := if_pos ⟨hlow, h⟩

theorem mulInt_ok {a b c : Int32} (h : mulInt a b = .ok c) :
    c.toInt = a.toInt * b.toInt ∧ a.toInt * b.toInt < 2 ^ 31 := by
  unfold mulInt at h
  split at h
  · rename_i hrange
    cases h
    refine ⟨?_, hrange.2⟩
    rw [Int32.toInt_mul]
    exact Int.bmod_eq_of_le (by omega) (by omega)
  · cases h

/-- The least power of two that is at least two and the capacity. -/
def PoolSize (capacity : Int32) (total : Nat) : Prop :=
  IsLeast {p : Nat | (∃ k, p = 2 ^ k) ∧ max capacity.toInt 2 ≤ p} total

theorem poolSize_queueSize {capacity : Int32} (hcap : 1 ≤ capacity.toInt) :
    PoolSize capacity (queueSize capacity.toUInt32).toNat := by
  have hnat := toNat_toUInt32 (x := capacity) (by omega)
  have hlt := capacity.toInt_lt
  have hleast : IsLeast _ (queueSize capacity.toUInt32).toNat :=
    queueSize_isLeast (by omega) (by omega)
  have hset : ∀ p : Nat, max capacity.toInt 2 ≤ p ↔ max capacity.toUInt32.toNat 2 ≤ p := by
    omega
  unfold PoolSize
  simp only [hset]
  exact hleast

/-- A capacity that is a power of two less one. -/
theorem poolSize_succ {capacity : Int32} {n k : Nat} (hcap : capacity.toInt = n) (hn : 1 ≤ n)
    (hpow : n + 1 = 2 ^ k) : PoolSize capacity (n + 1) := by
  refine ⟨⟨⟨k, hpow⟩, by omega⟩, ?_⟩
  rintro p ⟨⟨j, rfl⟩, hle⟩
  by_contra hlt
  have hjk : j < k := by
    rw [hpow, Nat.not_le] at hlt
    exact (Nat.pow_lt_pow_iff_right (by decide)).mp hlt
  have hdouble : 2 ^ (j + 1) ≤ 2 ^ k := Nat.pow_le_pow_right (by decide) hjk
  rw [Nat.pow_succ] at hdouble
  omega

/-- What the constructor returns, when the array is not too long. -/
theorem MemBlock.create_eq (place : Nat) {blockSize capacity : Int32} {total : Nat}
    (hsize : 1 ≤ blockSize.toInt) (hcap : 1 ≤ capacity.toInt) (htotal : PoolSize capacity total)
    (hfit : blockSize.toInt * total < 2 ^ 31) :
    ∃ m, MemBlock.create place blockSize capacity = .ok m ∧ m.block = place ∧
      m.bytes = blockSize.toInt.toNat * total ∧ total < 2 ^ 31 ∧
      Represents m.queue ⟨total - 1, blocksAt place blockSize.toInt.toNat (total - 1)⟩ := by
  have hnat := toNat_toUInt32 (x := capacity) (by omega)
  have hlt := capacity.toInt_lt
  have hpow : IsPowTwo (queueSize capacity.toUInt32) := queueSize_isPowTwo (by omega) (by omega)
  have hrep : Represents (α := Nat) (.create capacity.toUInt32) _ :=
    represents_create (queueSize_isPowTwo (by omega) (by omega))
  have heq := htotal.unique (poolSize_queueSize hcap)
  have htwo := hpow.two_le
  rw [← heq] at htwo hrep
  have hsmall : total < 2 ^ 31 := by
    have := Int.mul_le_mul_of_nonneg_right hsize (Int.natCast_nonneg total)
    omega
  have hint : (queueSize capacity.toUInt32).toInt32.toInt = total := by
    rw [toInt_toInt32 (by omega), heq]
  have hnonneg : 0 ≤ blockSize.toInt * total :=
    Int.mul_nonneg (by omega) (Int.natCast_nonneg total)
  obtain ⟨bytes, hmul⟩ : ∃ bytes, mulInt blockSize (queueSize capacity.toUInt32).toInt32 =
      .ok bytes := ⟨_, mulInt_eq (by rw [hint]; omega) (by rw [hint]; exact hfit)⟩
  have hbytes := (mulInt_ok hmul).1
  rw [hint] at hbytes
  have hne : capacity.toUInt32 ≠ 0 := by
    intro hzero
    rw [hzero] at hnat
    simp only [UInt32.toNat_zero] at hnat
    omega
  have hpush := represents_pushBlocks hrep place blockSize.toInt.toNat total
  rw [pushAll_blocksAt _ _ (by omega)] at hpush
  refine ⟨{ blockSize := blockSize, block := place, bytes := bytes.toInt.toNat
            queue := pushBlocks (.create capacity.toUInt32) place blockSize.toInt.toNat total },
    ?_, rfl, ?_, hsmall, ?_⟩
  · have hsign : ¬ bytes.toInt < 0 := by omega
    simp only [create, if_neg hne, LockFreeRingQueue.create, hmul, bind, Except.bind,
      if_neg hsign, hint, Int.toNat_natCast]
  · show bytes.toInt.toNat = blockSize.toInt.toNat * total
    rw [hbytes, Int.toNat_mul (by omega) (by omega), Int.toNat_natCast]
  · exact hpush

/-- The constructor does not return when the array is too long. -/
theorem MemBlock.fits_of_create {place : Nat} {blockSize capacity : Int32} {total : Nat}
    (hsize : 1 ≤ blockSize.toInt) (hcap : 1 ≤ capacity.toInt) (htotal : PoolSize capacity total)
    {m : MemBlock} (h : MemBlock.create place blockSize capacity = .ok m) :
    blockSize.toInt * total < 2 ^ 31 := by
  have hnat := toNat_toUInt32 (x := capacity) (by omega)
  have hlt := capacity.toInt_lt
  have hpow : IsPowTwo (queueSize capacity.toUInt32) := queueSize_isPowTwo (by omega) (by omega)
  have heq := htotal.unique (poolSize_queueSize hcap)
  have hle := hpow.le
  rw [← heq] at hle
  unfold create at h
  split at h
  · cases h
  cases hmul : mulInt blockSize (queueSize capacity.toUInt32).toInt32 with
  | error e =>
    simp only [LockFreeRingQueue.create, hmul, bind, Except.bind] at h
    cases h
  | ok bytes =>
    simp only [LockFreeRingQueue.create, hmul, bind, Except.bind] at h
    obtain ⟨hbytes, hfit⟩ := mulInt_ok hmul
    by_cases hsmall : total < 2 ^ 31
    · rw [toInt_toInt32 (by omega), ← heq] at hfit
      exact hfit
    · -- the number of slots is `2 ^ 31`, which is negative as an `int`
      have htop : queueSize capacity.toUInt32 = 2 ^ 31 := by
        rw [← UInt32.toNat_inj, ← heq]
        exact Nat.le_antisymm hle (Nat.le_of_not_lt hsmall)
      rw [htop, show ((2 : UInt32) ^ 31).toInt32.toInt = -2 ^ 31 by decide] at hbytes
      have hneg : bytes.toInt < 0 := by omega
      rw [if_pos hneg] at h
      cases h

/-! ## The steps -/

/-- The ring has the free blocks of a pool. -/
structure Holds (all : List Nat) (s : Users) (free : Fifo Nat) : Prop where
  ring : Represents s.mem.queue free
  balanced : Pool.Balanced all ⟨free, s.live⟩

section Steps

variable {all : List Nat} {s s' : Users} {free : Fifo Nat}

theorem MemBlock.alloc_nil {m : MemBlock} {f : Fifo Nat} (h : Represents m.queue f)
    (hitems : f.items = []) : m.alloc.1 = none ∧ Represents m.alloc.2.queue f := by
  have hpop : fifoCall f .pop = (.popped none, f) := by
    simp only [fifoCall, Fifo.pop, hitems]
  obtain ⟨hreply, hring⟩ := h.pop
  rw [hpop] at hreply hring
  exact ⟨Reply.popped.inj hreply, hring⟩

theorem MemBlock.alloc_cons {m : MemBlock} {f : Fifo Nat} {ptr : Nat} {rest : List Nat}
    (h : Represents m.queue f) (hitems : f.items = ptr :: rest) :
    m.alloc.1 = some ptr ∧ Represents m.alloc.2.queue { f with items := rest } := by
  have hpop : fifoCall f .pop = (.popped (some ptr), { f with items := rest }) := by
    simp only [fifoCall, Fifo.pop, hitems]
  obtain ⟨hreply, hring⟩ := h.pop
  rw [hpop] at hreply hring
  exact ⟨Reply.popped.inj hreply, hring⟩

theorem Holds.alloc_eq (h : Holds all s free) :
    s.mem.alloc.1 = (Pool.alloc ⟨free, s.live⟩).1 ∧
      Represents s.mem.alloc.2.queue (Pool.alloc ⟨free, s.live⟩).2.free := by
  cases hitems : free.items with
  | nil =>
    rw [Pool.alloc_nil hitems]
    exact MemBlock.alloc_nil h.ring hitems
  | cons ptr rest =>
    rw [Pool.alloc_cons hitems]
    exact MemBlock.alloc_cons h.ring hitems

theorem Holds.mem_of_alloc (h : Holds all s free) {ptr : Nat} (hptr : s.mem.alloc.1 = some ptr) :
    ptr ∈ all := by
  rw [h.alloc_eq.1] at hptr
  exact h.balanced.mem_of_free (Pool.mem_of_alloc hptr)

theorem Holds.next (h : Holds all s free) {a : Act} (hstep : s.next a = some s') :
    s'.mem.block = s.mem.block ∧ s'.mem.bytes = s.mem.bytes ∧ ∃ free', Holds all s' free' := by
  cases a with
  | alloc =>
    obtain ⟨hreply, hring⟩ := h.alloc_eq
    have hbalanced := h.balanced.alloc
    cases hitems : free.items with
    | nil =>
      rw [Pool.alloc_nil hitems] at hreply hring hbalanced
      have hnext : s.next .alloc = some { mem := s.mem.alloc.2, live := s.live } := by
        unfold Users.next
        rw [show s.mem.alloc = (none, s.mem.alloc.2) from Prod.ext hreply rfl]
      rw [hnext] at hstep
      cases hstep
      exact ⟨rfl, rfl, _, hring, hbalanced⟩
    | cons ptr rest =>
      rw [Pool.alloc_cons hitems] at hreply hring hbalanced
      have hnext : s.next .alloc = some { mem := s.mem.alloc.2, live := ptr :: s.live } := by
        unfold Users.next
        rw [show s.mem.alloc = (some ptr, s.mem.alloc.2) from Prod.ext hreply rfl]
      rw [hnext] at hstep
      cases hstep
      exact ⟨rfl, rfl, _, hring, hbalanced⟩
  | free ptr =>
    simp only [Users.next] at hstep
    split at hstep
    · rename_i hlive
      cases hstep
      exact ⟨rfl, rfl, _, (h.ring.push ptr).2, (h.balanced.release hlive).2⟩
    · cases hstep

theorem Holds.run (h : Holds all s free) {acts : List Act}
    (hrun : run Users.next s acts = some s') :
    s'.mem.block = s.mem.block ∧ s'.mem.bytes = s.mem.bytes ∧ ∃ free', Holds all s' free' := by
  induction acts generalizing s free with
  | nil =>
    cases hrun
    exact ⟨rfl, rfl, free, h⟩
  | cons a acts ih =>
    cases ha : s.next a with
    | none => simp [Lib.run, ha] at hrun
    | some s₁ =>
      rw [run_cons ha] at hrun
      obtain ⟨hblock, hbytes, free₁, h₁⟩ := h.next ha
      obtain ⟨hblock', hbytes', hend⟩ := ih h₁ hrun
      exact ⟨hblock'.trans hblock, hbytes'.trans hbytes, hend⟩

end Steps

/-- Only what was in a pool comes out of it. -/
theorem mem_of_alloc_after {m : MemBlock} {all : List Nat} {cap : Nat} (h : Represents m.queue ⟨cap, all⟩)
    {acts : List Act} {s : Users} (hrun : run Users.next ⟨m, []⟩ acts = some s) {ptr : Nat}
    (hptr : s.mem.alloc.1 = some ptr) : ptr ∈ all := by
  have hstart : Holds all ⟨m, []⟩ ⟨cap, all⟩ := ⟨h, Pool.balanced_full h.bounded⟩
  obtain ⟨-, -, free, hend⟩ := hstart.run hrun
  exact hend.mem_of_alloc hptr

/-- A pool that holds the blocks it was built with works. -/
theorem Holds.correct {place blockSize total : Nat} {s : Users} {free : Fifo Nat}
    (h : Holds (blocksAt place blockSize total) s free) (hsize : 1 ≤ blockSize)
    (hblock : s.mem.block = place) (hbytes : total * blockSize ≤ s.mem.bytes)
    (htotal : total < 2 ^ 31) : Correct place blockSize total s where
  returned _ hptr := mem_blocksAt.mp (h.mem_of_alloc hptr)
  disjoint := by
    refine (h.balanced.nodup_live (nodup_blocksAt hsize place total)).imp_of_mem ?_
    intro p q hp hq hne
    obtain ⟨i, -, rfl⟩ := mem_blocksAt.mp (h.balanced.mem_of_live hp)
    obtain ⟨j, -, rfl⟩ := mem_blocksAt.mp (h.balanced.mem_of_live hq)
    exact blocks_apart fun heq => hne (by rw [heq])
  inside ptr hptr := by
    obtain ⟨i, hi, rfl⟩ := mem_blocksAt.mp (h.balanced.mem_of_live hptr)
    have hle := Nat.mul_le_mul_right blockSize hi
    rw [Nat.succ_mul] at hle
    rw [hblock]
    omega
  alloc := by
    rw [h.alloc_eq.1, h.balanced.alloc_none_iff, length_blocksAt]
  free ptr hptr := (h.ring.push ptr).1.trans (h.balanced.release hptr).1
  size := by
    have hlen : free.items.length + s.live.length = _ := h.balanced.length
    rw [length_blocksAt] at hlen
    have hnat := h.ring.toNat_length
    rw [MemBlock.size, toInt_toInt32 (by omega), hnat]
    omega

/-- **The pool is correct**: whatever is allocated and freed, and however often, as long as
nothing is freed that is not allocated. -/
theorem memBlock_correct (place : Nat) {blockSize capacity : Int32} {total : Nat}
    (hsize : 1 ≤ blockSize.toInt) (hcap : 1 ≤ capacity.toInt) (htotal : PoolSize capacity total)
    (hfit : blockSize.toInt * total < 2 ^ 31) :
    ∃ m, MemBlock.create place blockSize capacity = .ok m ∧
      ∀ acts s, run Users.next ⟨m, []⟩ acts = some s →
        Correct place blockSize.toInt.toNat (total - 1) s := by
  obtain ⟨m, hm, hblock, hbytes, hsmall, hring⟩ :=
    MemBlock.create_eq place hsize hcap htotal hfit
  refine ⟨m, hm, fun acts s hrun => ?_⟩
  have hstart : Holds (blocksAt place blockSize.toInt.toNat (total - 1)) ⟨m, []⟩ _ :=
    ⟨hring, Pool.balanced_full (by rw [length_blocksAt])⟩
  obtain ⟨hblock', hbytes', free, hholds⟩ := hstart.run hrun
  refine hholds.correct (by omega) (hblock'.trans hblock) ?_ (by omega)
  rw [hbytes', hbytes, Nat.mul_comm]
  exact Nat.mul_le_mul_left _ (Nat.sub_le ..)

/-- Three blocks of eight bytes are asked for; all are taken, and one comes back. -/
theorem memBlock_correct_three : ∃ m s, MemBlock.create 4096 8 3 = .ok m ∧
    run Users.next ⟨m, []⟩ [.alloc, .alloc, .alloc, .alloc, .free 4104, .alloc] = some s ∧
    Correct 4096 8 3 s := by
  have htotal : PoolSize 3 4 := by
    refine ⟨⟨⟨2, rfl⟩, by decide⟩, ?_⟩
    rintro p ⟨⟨k, rfl⟩, hle⟩
    have hthree : (3 : Int) ≤ (2 ^ k : Nat) := (le_max_left ..).trans hle
    have hk : ¬ k ≤ 1 := fun hk => by
      have : 2 ^ k ≤ 2 ^ 1 := Nat.pow_le_pow_right (by decide) hk
      omega
    exact Nat.pow_le_pow_right (show 2 > 0 by decide) (Nat.lt_of_not_le hk)
  obtain ⟨m, hm, hcorrect⟩ := memBlock_correct 4096 (show 1 ≤ (8 : Int32).toInt by decide)
    (by decide) htotal (by decide)
  have hruns : (match MemBlock.create 4096 8 3 with
      | .ok m => (run Users.next ⟨m, []⟩
          [.alloc, .alloc, .alloc, .alloc, .free 4104, .alloc]).isSome
      | .error _ => false) = true := by decide
  rw [hm] at hruns
  obtain ⟨s, hs⟩ := Option.isSome_iff_exists.mp hruns
  exact ⟨m, s, hm, hs, hcorrect _ s hs⟩

end TinyTcp.Mem
