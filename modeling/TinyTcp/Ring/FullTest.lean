/-
TinyTcp.Ring.FullTest — `is_full` against the full test of `push`.

Both members look whether the slot behind the write index is the slot of
the read index; `push` masks both indices, `is_full` only the first one.
So `is_full` is right as long as the read index is below the size
(`isFull_iff`), and behind that it never finds a full queue full.
`isFull_agrees_iff` is for every sequence of calls of one thread.
-/
import TinyTcp.Ring.Sequential

namespace TinyTcp.Ring

open TinyTcp.Lib

variable {α : Type}

/-- `is_full`; the read index is not masked. -/
def LockFreeRingQueue.isFull (q : LockFreeRingQueue α) : Bool :=
  q.indexOfQueue (q.writeIndex + 1) == q.readIndex

/-! ## The two tests -/

theorem indexOfQueue_lt {q : LockFreeRingQueue α} (hsize : IsPowTwo q.size) (index : UInt32) :
    q.indexOfQueue index < q.size := by
  rw [UInt32.lt_iff_toNat_lt, LockFreeRingQueue.indexOfQueue, toNat_and_mask hsize]
  exact Nat.mod_lt _ (Nat.lt_of_lt_of_le (by decide) hsize.two_le)

/-- The mask leaves an index below the size alone. -/
theorem indexOfQueue_of_lt {q : LockFreeRingQueue α} (hsize : IsPowTwo q.size) {index : UInt32}
    (h : index < q.size) : q.indexOfQueue index = index := by
  rw [← UInt32.toNat_inj, LockFreeRingQueue.indexOfQueue, toNat_and_mask hsize]
  exact Nat.mod_eq_of_lt (UInt32.lt_iff_toNat_lt.mp h)

/-- `is_full` is the full test of `push` on a read index below the size. -/
theorem isFull_iff {q : LockFreeRingQueue α} (hsize : IsPowTwo q.size) :
    q.isFull = true ↔ q.full = true ∧ q.readIndex < q.size := by
  rw [LockFreeRingQueue.isFull, LockFreeRingQueue.full, beq_iff_eq, beq_iff_eq]
  constructor
  · intro heq
    have hlt : q.readIndex < q.size := heq ▸ indexOfQueue_lt hsize _
    exact ⟨by rw [heq, indexOfQueue_of_lt hsize hlt], hlt⟩
  · rintro ⟨heq, hlt⟩
    rw [heq, indexOfQueue_of_lt hsize hlt]

/-- A push comes back with `false` exactly if its full test says so. -/
theorem returns_false_iff (q : LockFreeRingQueue α) (data : α) :
    (∃ q', Returns q (.push data) (.pushed false) q') ↔ q.full = true := by
  simp only [returns_iff]
  constructor
  · rintro ⟨q', hcall⟩
    by_contra hfull
    rw [Bool.not_eq_true] at hfull
    rw [LockFreeRingQueue.call, push_of_not_full hfull] at hcall
    cases hcall
  · intro hfull
    exact ⟨q, by rw [LockFreeRingQueue.call, push_of_full hfull]⟩

/-- The full test finds out whether all but one slot are counted as taken. -/
theorem Represents.full_iff_length {q : LockFreeRingQueue α} {f : Fifo α} (h : Represents q f) :
    q.full = true ↔ ¬ q.length < q.size - 1 := by
  have hb := h.bounded
  rw [LockFreeRingQueue.full, beq_iff_eq, h.full_iff, UInt32.lt_iff_toNat_lt, h.toNat_length,
    h.size.toNat_sub_one, h.cap]
  omega

/-! ## Runs -/

/-- **The two tests agree** after a sequence of calls exactly if the read index is below the
size or there is room. -/
theorem isFull_agrees_iff [Inhabited α] {size : UInt32} (hsize : queueSize size ≠ 0)
    {calls : List (Call α)} {replies : List (Reply α)} {q : LockFreeRingQueue α}
    (hcalls : Calls (.create size) calls replies q) (data : α) :
    (q.isFull = true ↔ ∃ q', Returns q (.push data) (.pushed false) q') ↔
      q.readIndex < q.size ∨ q.length < q.size - 1 := by
  have hrep := (trace_simulates (fun _ _ c h => Represents.call h c) calls _ _
    (represents_create (α := α) (queueSize_isPowTwo_of_ne_zero hsize))).2
  rw [(calls_iff _ _ _ _).mp hcalls] at hrep
  rw [returns_false_iff, isFull_iff hrep.size, hrep.full_iff_length]
  by_cases hread : q.readIndex < q.size
  · simp only [hread, and_true, true_or]
  · by_cases hroom : q.length < q.size - 1
    · simp only [hread, hroom, and_false, not_true_eq_false, or_true]
    · simp only [hread, hroom, and_false, not_false_eq_true, iff_true, or_false]

/-- A queue of two slots that is full, before any pop. -/
theorem isFull_agrees_no_pop :
    ∃ q : LockFreeRingQueue Nat, Calls (.create 2) [.push 10] [.pushed true] q ∧
      (q.isFull = true ↔ ∃ q', Returns q (.push 20) (.pushed false) q') := by
  have hreplies : (trace LockFreeRingQueue.call (.create 2) [.push 10]).1 =
      [Reply.pushed (α := Nat) true] := by decide
  have hcalls := (calls_iff [.push 10] _ (.create 2) _).mpr (Prod.ext hreplies rfl)
  exact ⟨_, hcalls, (isFull_agrees_iff (by decide) hcalls 20).mpr (.inl (by decide))⟩

/-- Two elements have gone through a queue of two slots, and a third one fills it. -/
theorem isFull_after_two_pops :
    ¬ ∀ (calls : List (Call Nat)) (replies : List (Reply Nat)) (q : LockFreeRingQueue Nat)
      (data : Nat), Calls (.create 2) calls replies q →
        (q.isFull = true ↔ ∃ q', Returns q (.push data) (.pushed false) q') := by
  intro hall
  let calls : List (Call Nat) := [.push 10, .pop, .push 20, .pop, .push 30]
  have hcalls := (calls_iff calls _ (.create 2) _).mpr (Prod.mk.eta).symm
  have hagree := hall calls _ _ 40 hcalls
  rw [returns_false_iff] at hagree
  exact absurd hagree (by decide)

end TinyTcp.Ring
