/-
TinyTcp.Ring.Sequential — the ring queue in the hands of one thread.

`LockFreeRingQueue.push` and `.pop` are the two members as one thread sees
them: nothing moves between its accesses, so each loop goes through once.
`Returns` says the same in terms of the accesses of `Queue`: a thread that
runs alone from the call to the return, with any number of spurious
failures in between. `returns_iff` connects the two.

`sequential_fifo` is the refinement: for every requested size up to
`2 ^ 31` and every list of calls, the replies are those of a bounded FIFO
list (`fifoCall`). The relation behind it, `Represents`, reads the indices
as truncations of the number of pops and the number of pushes so far; both
grow without bound, and the elements are at their numbers' slots.
-/
import TinyTcp.Ring.QueueTheorems
import TinyTcp.Lib.Fifo

namespace TinyTcp.Ring

open TinyTcp.Lib

variable {α : Type}

/-! ## The calls -/

inductive Call (α : Type) where
  | push (data : α)
  | pop
  | size
  | isEmpty
  deriving DecidableEq

inductive Reply (α : Type) where
  | pushed (ok : Bool)
  | popped (data : Option α)
  | size (n : Nat)
  | isEmpty (b : Bool)
  deriving DecidableEq

namespace LockFreeRingQueue

def push (q : LockFreeRingQueue α) (data : α) : Bool × LockFreeRingQueue α :=
  if q.indexOfQueue (q.writeIndex + 1) = q.indexOfQueue q.readIndex then (false, q)
  else (true, { q with
    writeIndex := q.writeIndex + 1
    queue := Function.update q.queue (q.indexOfQueue q.writeIndex) data
    lastWriteIndex := q.lastWriteIndex + 1
    length := q.length + 1 })

def pop (q : LockFreeRingQueue α) : Option α × LockFreeRingQueue α :=
  if q.indexOfQueue q.lastWriteIndex = q.indexOfQueue q.readIndex then (none, q)
  else (some (q.queue (q.indexOfQueue q.readIndex)),
    { q with readIndex := q.readIndex + 1, length := q.length - 1 })

/-- The elements in the slots from the read index on, as many as are counted. -/
def elements (q : LockFreeRingQueue α) : List α :=
  (List.range q.length.toNat).map fun i => q.queue (q.indexOfQueue (q.readIndex + UInt32.ofNat i))

def call (q : LockFreeRingQueue α) : Call α → Reply α × LockFreeRingQueue α
  | .push data => (.pushed (q.push data).1, (q.push data).2)
  | .pop => (.popped q.pop.1, q.pop.2)
  | .size => (.size q.length.toNat, q)
  | .isEmpty => (.isEmpty (q.length == 0), q)

end LockFreeRingQueue

/-! ## The abstract queue -/

/-- What a bounded FIFO list answers. -/
def fifoCall (f : Fifo α) : Call α → Reply α × Fifo α
  | .push data => (.pushed (f.push data).1, (f.push data).2)
  | .pop =>
      match f.pop with
      | some (data, f') => (.popped (some data), f')
      | none => (.popped none, f)
  | .size => (.size f.items.length, f)
  | .isEmpty => (.isEmpty (f.items.length == 0), f)

/-! ## The relation -/

/-- `q` holds the elements of `f`, the oldest one at the slot of the number
of pops so far. -/
structure Represents (q : LockFreeRingQueue α) (f : Fifo α) : Prop where
  size : IsPowTwo q.size
  cap : f.cap = q.size.toNat - 1
  bounded : f.items.length ≤ f.cap
  length : q.length = UInt32.ofNat f.items.length
  indices : ∃ popped, q.readIndex = UInt32.ofNat popped ∧
    q.writeIndex = UInt32.ofNat (popped + f.items.length) ∧
    q.lastWriteIndex = UInt32.ofNat (popped + f.items.length) ∧
    ∀ i v, f.items[i]? = some v → q.queue (q.indexOfQueue (UInt32.ofNat (popped + i))) = v

theorem Represents.toNat_length {q : LockFreeRingQueue α} {f : Fifo α} (h : Represents q f) :
    q.length.toNat = f.items.length := by
  have := h.bounded
  have := h.cap
  have := h.size.le
  rw [h.length, UInt32.toNat_ofNat', Nat.mod_eq_of_lt (by omega)]

theorem Represents.elements {q : LockFreeRingQueue α} {f : Fifo α} (h : Represents q f) :
    q.elements = f.items := by
  obtain ⟨popped, hread, -, -, hslots⟩ := h.indices
  refine List.ext_getElem ?_ fun i hi hi' => ?_
  · rw [LockFreeRingQueue.elements, List.length_map, List.length_range, h.toNat_length]
  · have hslot := hslots i _ (List.getElem?_eq_getElem hi')
    rw [UInt32.ofNat_add, ← hread] at hslot
    simpa [LockFreeRingQueue.elements] using hslot

theorem represents_create [Inhabited α] {size : UInt32} (hsize : IsPowTwo (queueSize size)) :
    Represents (α := α) (.create size) ⟨(queueSize size).toNat - 1, []⟩ where
  size := hsize
  cap := rfl
  bounded := Nat.zero_le _
  length := rfl
  indices := ⟨0, rfl, rfl, rfl, by intro i v hv; simp at hv⟩

/-- Numbers less than one turn apart are told apart by the mask, and the
number one turn ahead is not. -/
theorem mask_next_iff {q : LockFreeRingQueue α} (hsize : IsPowTwo q.size) {a n : Nat}
    (hn : n ≤ q.size.toNat) (hpos : 0 < n) :
    q.indexOfQueue (UInt32.ofNat (a + n)) = q.indexOfQueue (UInt32.ofNat a) ↔
      n = q.size.toNat := by
  rw [LockFreeRingQueue.indexOfQueue, LockFreeRingQueue.indexOfQueue, and_mask_eq_iff hsize]
  constructor
  · intro heq
    by_contra hne
    have := mod_inj_of_near (Nat.le_add_right a n) (by omega) heq.symm
    omega
  · rintro rfl
    rw [Nat.add_mod_right]

theorem ofNat_succ (n : Nat) : UInt32.ofNat n + 1 = UInt32.ofNat (n + 1) := by
  rw [UInt32.ofNat_add]
  rfl

section Step

variable {q : LockFreeRingQueue α} {f : Fifo α}

/-- The full test of `push` finds out whether all but one slot are taken. -/
theorem Represents.full_iff (h : Represents q f) :
    q.indexOfQueue (q.writeIndex + 1) = q.indexOfQueue q.readIndex ↔
      f.cap ≤ f.items.length := by
  obtain ⟨popped, hread, hwrite, -, -⟩ := h.indices
  have htwo := h.size.two_le
  have hb := h.bounded
  have hcap := h.cap
  rw [hwrite, hread, ofNat_succ, Nat.add_assoc, mask_next_iff h.size (by omega) (by omega)]
  omega

/-- The empty test of `pop` finds out whether nothing is held. -/
theorem Represents.empty_iff (h : Represents q f) :
    q.indexOfQueue q.lastWriteIndex = q.indexOfQueue q.readIndex ↔ f.items = [] := by
  obtain ⟨popped, hread, -, hlast, -⟩ := h.indices
  have htwo := h.size.two_le
  have hb := h.bounded
  have hcap := h.cap
  rw [hlast, hread]
  cases hitems : f.items with
  | nil => simp
  | cons v rest =>
    have hlen : f.items.length = rest.length + 1 := by rw [hitems, List.length_cons]
    rw [← hitems, hlen, mask_next_iff h.size (by omega) (by omega), hitems]
    constructor
    · intro heq
      omega
    · intro hnil
      cases hnil

theorem Represents.push (h : Represents q f) (data : α) :
    (q.push data).1 = (f.push data).1 ∧ Represents (q.push data).2 (f.push data).2 := by
  rw [LockFreeRingQueue.push]
  by_cases hfull : f.cap ≤ f.items.length
  · rw [if_pos (h.full_iff.mpr hfull), Fifo.push_of_full hfull]
    exact ⟨rfl, h⟩
  · have hroom : f.items.length < f.cap := Nat.lt_of_not_le hfull
    rw [if_neg (fun heq => hfull (h.full_iff.mp heq)), Fifo.push_of_room hroom]
    refine ⟨rfl, { size := h.size, cap := h.cap, bounded := ?_, length := ?_, indices := ?_ }⟩
    · show (f.items ++ [data]).length ≤ f.cap
      rw [List.length_append, List.length_singleton]
      exact hroom
    · show q.length + 1 = UInt32.ofNat (f.items ++ [data]).length
      rw [h.length, ofNat_succ, List.length_append, List.length_singleton]
    · obtain ⟨popped, hread, hwrite, hlast, hslots⟩ := h.indices
      have hcap := h.cap
      refine ⟨popped, hread, ?_, ?_, fun i v hv => ?_⟩
      · show q.writeIndex + 1 = UInt32.ofNat (popped + (f.items ++ [data]).length)
        rw [hwrite, ofNat_succ, List.length_append, List.length_singleton, Nat.add_assoc]
      · show q.lastWriteIndex + 1 = UInt32.ofNat (popped + (f.items ++ [data]).length)
        rw [hlast, ofNat_succ, List.length_append, List.length_singleton, Nat.add_assoc]
      · show Function.update q.queue (q.indexOfQueue q.writeIndex) data
          (q.indexOfQueue (UInt32.ofNat (popped + i))) = v
        have hv' : (f.items ++ [data])[i]? = some v := hv
        rcases Nat.lt_or_ge i f.items.length with hi | hi
        · -- an element held already is in another slot
          rw [List.getElem?_append_left hi] at hv'
          have hne : q.indexOfQueue (UInt32.ofNat (popped + i)) ≠
              q.indexOfQueue q.writeIndex := by
            intro heq
            rw [hwrite] at heq
            have := and_mask_inj_of_near h.size (by omega) (by omega) heq
            omega
          rw [Function.update_of_ne hne]
          exact hslots i v hv'
        · rw [List.getElem?_append_right hi] at hv'
          obtain ⟨hlt, hval⟩ := List.getElem?_eq_some_iff.mp hv'
          have hi' : i = f.items.length := by
            rw [List.length_singleton] at hlt
            omega
          subst hi'
          rw [hwrite, Function.update_self]
          simpa using hval

/-- The reply of `pop` and what is left. -/
theorem Represents.pop (h : Represents q f) :
    (q.call .pop).1 = (fifoCall f .pop).1 ∧
      Represents (q.call .pop).2 (fifoCall f .pop).2 := by
  rw [LockFreeRingQueue.call, LockFreeRingQueue.pop, fifoCall, Fifo.pop]
  cases hitems : f.items with
  | nil =>
    rw [if_pos (h.empty_iff.mpr hitems)]
    exact ⟨rfl, h⟩
  | cons v rest =>
    have hne : f.items ≠ [] := by
      rw [hitems]
      exact List.cons_ne_nil v rest
    have hlen : f.items.length = rest.length + 1 := by rw [hitems, List.length_cons]
    rw [if_neg (fun heq => hne (h.empty_iff.mp heq))]
    obtain ⟨popped, hread, hwrite, hlast, hslots⟩ := h.indices
    refine ⟨?_, { size := h.size, cap := h.cap, bounded := ?_, length := ?_, indices := ?_ }⟩
    · have hv := hslots 0 v (by rw [hitems]; rfl)
      show Reply.popped (some (q.queue (q.indexOfQueue q.readIndex))) = .popped (some v)
      rw [hread]
      exact congrArg (Reply.popped ∘ some) hv
    · have := h.bounded
      show rest.length ≤ f.cap
      omega
    · show q.length - 1 = UInt32.ofNat rest.length
      rw [h.length, hlen, ← ofNat_succ, UInt32.add_sub_cancel]
    · refine ⟨popped + 1, ?_, ?_, ?_, fun i v hv => ?_⟩
      · show q.readIndex + 1 = UInt32.ofNat (popped + 1)
        rw [hread, ofNat_succ]
      · show q.writeIndex = UInt32.ofNat (popped + 1 + rest.length)
        rw [hwrite, hlen, Nat.add_right_comm, Nat.add_assoc]
      · show q.lastWriteIndex = UInt32.ofNat (popped + 1 + rest.length)
        rw [hlast, hlen, Nat.add_right_comm, Nat.add_assoc]
      · have hv' := hslots (i + 1) v (by rw [hitems]; exact hv)
        rw [Nat.add_right_comm, Nat.add_assoc]
        exact hv'

/-- **One call**: the reply is that of the list, and what is left of the
queue represents what is left of the list. -/
theorem Represents.call (h : Represents q f) (c : Call α) :
    (q.call c).1 = (fifoCall f c).1 ∧ Represents (q.call c).2 (fifoCall f c).2 := by
  cases c with
  | push data =>
    obtain ⟨hreply, hnext⟩ := h.push data
    exact ⟨congrArg Reply.pushed hreply, hnext⟩
  | pop => exact h.pop
  | size =>
    refine ⟨?_, h⟩
    show Reply.size q.length.toNat = .size f.items.length
    rw [h.toNat_length]
  | isEmpty =>
    refine ⟨?_, h⟩
    show Reply.isEmpty (q.length == 0) = .isEmpty (f.items.length == 0)
    congr 1
    rw [Bool.eq_iff_iff, beq_iff_eq, beq_iff_eq, ← UInt32.toNat_inj, h.toNat_length]
    rfl

end Step

/-! ## One thread's accesses -/

/-- A thread that runs alone, with what its last access did. -/
def alone (s : LockFreeRingQueue α × Pc α × Event α) (l : Label α) :
    Option (LockFreeRingQueue α × Pc α × Event α) := act s.1 s.2.1 l

/-- The label performs an access of the call in progress. -/
def Label.IsAccess (l : Label α) : Prop := l = .go ∨ l = .spurious

/-- The thread makes the call, goes through its accesses and returns. The
members `size` and `is_empty` are one load each. -/
inductive Returns : LockFreeRingQueue α → Call α → Reply α → LockFreeRingQueue α → Prop where
  | push {q q' : LockFreeRingQueue α} {data : α} {ok : Bool} (ls : List (Label α))
      (accesses : ∀ l ∈ ls, l.IsAccess)
      (returned : run alone (q, .pushLoadRead data, .called) ls =
        some (q', .idle, .pushReturned ok)) :
      Returns q (.push data) (.pushed ok) q'
  | pop {q q' : LockFreeRingQueue α} {data : Option α} (ls : List (Label α))
      (accesses : ∀ l ∈ ls, l.IsAccess)
      (returned : run alone (q, .popLoadRead, .called) ls = some (q', .idle, .popReturned data)) :
      Returns q .pop (.popped data) q'
  | size (q : LockFreeRingQueue α) : Returns q .size (.size q.length.toNat) q
  | isEmpty (q : LockFreeRingQueue α) : Returns q .isEmpty (.isEmpty (q.length == 0)) q

/-- The calls of one thread, one after the other, with their replies. -/
inductive Calls : LockFreeRingQueue α → List (Call α) → List (Reply α) → LockFreeRingQueue α → Prop
  where
  | nil (q : LockFreeRingQueue α) : Calls q [] [] q
  | cons {q q₁ q₂ : LockFreeRingQueue α} {c : Call α} {r : Reply α} {cs : List (Call α)}
      {rs : List (Reply α)} (first : Returns q c r q₁) (rest : Calls q₁ cs rs q₂) :
      Calls q (c :: cs) (r :: rs) q₂

/-- Where a push that started on `q₀` stands. -/
def Pushing (q₀ : LockFreeRingQueue α) (data : α) :
    LockFreeRingQueue α × Pc α × Event α → Prop
  | (q, .pushLoadRead d, _) => q = q₀ ∧ d = data
  | (q, .pushLoadWrite d r, _) => q = q₀ ∧ d = data ∧ r = q₀.readIndex
  | (q, .pushReserve d w, _) => q = q₀ ∧ d = data ∧ w = q₀.writeIndex ∧ q₀.full = false
  | (q, .pushStore d w, _) =>
      q = { q₀ with writeIndex := q₀.writeIndex + 1 } ∧ d = data ∧ w = q₀.writeIndex ∧
      q₀.full = false
  | (q, .pushConfirm _ _, _) =>
      q = { (q₀.push data).2 with lastWriteIndex := q₀.lastWriteIndex, length := q₀.length } ∧
      q₀.full = false
  | (q, .pushCount, _) => q = { (q₀.push data).2 with length := q₀.length } ∧ q₀.full = false
  | (q, .idle, e) => e = .pushReturned (q₀.push data).1 ∧ q = (q₀.push data).2
  | _ => False

/-- Where a pop that started on `q₀` stands. -/
def Popping (q₀ : LockFreeRingQueue α) : LockFreeRingQueue α × Pc α × Event α → Prop
  | (q, .popLoadRead, _) => q = q₀
  | (q, .popLoadLast r, _) => q = q₀ ∧ r = q₀.readIndex
  | (q, .popReadSlot r, _) => q = q₀ ∧ r = q₀.readIndex ∧ q₀.pop.1.isSome = true
  | (q, .popAdvance r data, _) => q = q₀ ∧ r = q₀.readIndex ∧ q₀.pop.1 = some data
  | (q, .popCount data, _) =>
      q = { q₀.pop.2 with length := q₀.length } ∧ q₀.pop.1 = some data
  | (q, .idle, e) => e = .popReturned q₀.pop.1 ∧ q = q₀.pop.2
  | _ => False

theorem push_of_full {q : LockFreeRingQueue α} (h : q.full = true) (data : α) :
    q.push data = (false, q) := by
  rw [LockFreeRingQueue.full, beq_iff_eq] at h
  rw [LockFreeRingQueue.push, if_pos h]

theorem push_of_not_full {q : LockFreeRingQueue α} (h : q.full = false) (data : α) :
    q.push data = (true, { q with
      writeIndex := q.writeIndex + 1
      queue := Function.update q.queue (q.indexOfQueue q.writeIndex) data
      lastWriteIndex := q.lastWriteIndex + 1
      length := q.length + 1 }) := by
  rw [LockFreeRingQueue.full, beq_eq_false_iff_ne] at h
  rw [LockFreeRingQueue.push, if_neg h]

theorem pop_of_empty {q : LockFreeRingQueue α}
    (h : q.indexOfQueue q.lastWriteIndex = q.indexOfQueue q.readIndex) : q.pop = (none, q) := by
  rw [LockFreeRingQueue.pop, if_pos h]

theorem pop_of_not_empty {q : LockFreeRingQueue α}
    (h : q.indexOfQueue q.lastWriteIndex ≠ q.indexOfQueue q.readIndex) :
    q.pop = (some (q.queue (q.indexOfQueue q.readIndex)),
      { q with readIndex := q.readIndex + 1, length := q.length - 1 }) := by
  rw [LockFreeRingQueue.pop, if_neg h]

/-- A pop that gets an element moves the read index and the counter. -/
theorem pop_of_isSome {q : LockFreeRingQueue α} (h : q.pop.1.isSome = true) :
    q.pop = (some (q.queue (q.indexOfQueue q.readIndex)),
      { q with readIndex := q.readIndex + 1, length := q.length - 1 }) := by
  refine pop_of_not_empty fun hempty => ?_
  rw [pop_of_empty hempty] at h
  cases h

/-- The accesses of a push, one after the other. -/
theorem pushing_step {q₀ : LockFreeRingQueue α} {data : α}
    {s s' : LockFreeRingQueue α × Pc α × Event α} (hs : Pushing q₀ data s) {l : Label α}
    (hl : l.IsAccess) (hstep : alone s l = some s') : Pushing q₀ data s' := by
  obtain ⟨q, pc, e⟩ := s
  obtain ⟨q', pc', e'⟩ := s'
  have hact : act q pc l = some (q', pc', e') := hstep
  cases act_iff_access.mp hact with
  | callPush | callPop => rcases hl with hl | hl <;> cases hl
  | pushLoadRead d =>
    obtain ⟨rfl, rfl⟩ := hs
    exact ⟨rfl, rfl, rfl⟩
  | pushRefused d r heq =>
    obtain ⟨rfl, rfl, rfl⟩ := hs
    have hfull : q.full = true := by rw [LockFreeRingQueue.full, beq_iff_eq, heq]
    rw [Pushing, push_of_full hfull]
    exact ⟨rfl, rfl⟩
  | pushLoadWrite d r hne =>
    obtain ⟨rfl, rfl, rfl⟩ := hs
    have hfull : q.full = false := by rw [LockFreeRingQueue.full, beq_eq_false_iff_ne]; exact hne
    exact ⟨rfl, rfl, rfl, hfull⟩
  | pushReserve d =>
    obtain ⟨rfl, rfl, -, hfull⟩ := hs
    exact ⟨rfl, rfl, rfl, hfull⟩
  | pushRetry d w =>
    obtain ⟨rfl, rfl, -, -⟩ := hs
    exact ⟨rfl, rfl⟩
  | pushStore d w =>
    obtain ⟨rfl, rfl, rfl, hfull⟩ := hs
    refine ⟨?_, hfull⟩
    rw [push_of_not_full hfull]
    rfl
  | pushConfirm d =>
    obtain ⟨rfl, hfull⟩ := hs
    refine ⟨?_, hfull⟩
    rw [push_of_not_full hfull]
  | pushReread d w =>
    obtain ⟨rfl, hfull⟩ := hs
    exact ⟨rfl, hfull⟩
  | pushCount =>
    obtain ⟨rfl, hfull⟩ := hs
    rw [Pushing, push_of_not_full hfull]
    exact ⟨rfl, rfl⟩
  | _ => exact hs.elim

theorem popping_step {q₀ : LockFreeRingQueue α} {s s' : LockFreeRingQueue α × Pc α × Event α}
    (hs : Popping q₀ s) {l : Label α} (hl : l.IsAccess) (hstep : alone s l = some s') :
    Popping q₀ s' := by
  obtain ⟨q, pc, e⟩ := s
  obtain ⟨q', pc', e'⟩ := s'
  have hact : act q pc l = some (q', pc', e') := hstep
  cases act_iff_access.mp hact with
  | callPush | callPop => rcases hl with hl | hl <;> cases hl
  | popLoadRead =>
    obtain rfl := hs
    exact ⟨rfl, rfl⟩
  | popRefused r hempty =>
    obtain ⟨rfl, rfl⟩ := hs
    rw [Popping, pop_of_empty hempty]
    exact ⟨rfl, rfl⟩
  | popLoadLast r hne =>
    obtain ⟨rfl, rfl⟩ := hs
    refine ⟨rfl, rfl, ?_⟩
    rw [pop_of_not_empty hne]
    rfl
  | popReadSlot r =>
    obtain ⟨rfl, rfl, hsome⟩ := hs
    refine ⟨rfl, rfl, ?_⟩
    rw [pop_of_isSome hsome]
  | popAdvance d =>
    obtain ⟨rfl, -, hd⟩ := hs
    refine ⟨?_, hd⟩
    rw [pop_of_isSome (Option.isSome_of_eq_some hd)]
  | popRetry r d =>
    obtain ⟨rfl, -, -⟩ := hs
    rfl
  | popCount d =>
    obtain ⟨rfl, hd⟩ := hs
    rw [Popping, pop_of_isSome (Option.isSome_of_eq_some hd)]
    refine ⟨?_, rfl⟩
    rw [← hd, pop_of_isSome (Option.isSome_of_eq_some hd)]
  | _ => exact hs.elim

/-- A push that is not disturbed comes back. -/
theorem push_returns (q : LockFreeRingQueue α) (data : α) :
    ∃ ls : List (Label α), (∀ l ∈ ls, l.IsAccess) ∧ ∃ s, s.2.1 = .idle ∧
      run alone (q, .pushLoadRead data, .called) ls = some s := by
  have hgo : ∀ n, ∀ l ∈ List.replicate n (Label.go : Label α), l.IsAccess :=
    fun n l hl => .inl (List.eq_of_mem_replicate hl)
  by_cases hfull : q.indexOfQueue (q.writeIndex + 1) = q.indexOfQueue q.readIndex
  · exact ⟨List.replicate 2 .go, hgo 2, (q, .idle, .pushReturned false), rfl,
      by simp [List.replicate, run, alone, act, hfull]⟩
  · have hreserved : run alone (q, .pushLoadRead data, .called) (List.replicate 4 .go) =
        some ({ q with
          writeIndex := q.writeIndex + 1
          queue := Function.update q.queue (q.indexOfQueue q.writeIndex) data },
          .pushConfirm data q.writeIndex, .stored (q.indexOfQueue q.writeIndex)) := by
      simp only [List.replicate, run, alone, act, hfull, if_true, if_false]
      rfl
    by_cases hlast : q.lastWriteIndex = q.writeIndex
    · refine ⟨List.replicate 4 .go ++ List.replicate 2 .go, ?_, ?_⟩
      · rw [List.replicate_append_replicate]
        exact hgo 6
      · rw [run_append, hreserved]
        simp [List.replicate, run, alone, act, hlast]
    · refine ⟨List.replicate 4 .go ++ List.replicate 3 .go, ?_, ?_⟩
      · rw [List.replicate_append_replicate]
        exact hgo 7
      · rw [run_append, hreserved]
        simp [List.replicate, run, alone, act, hlast]

theorem pop_returns (q : LockFreeRingQueue α) :
    ∃ ls : List (Label α), (∀ l ∈ ls, l.IsAccess) ∧ ∃ s, s.2.1 = .idle ∧
      run alone (q, .popLoadRead, .called) ls = some s := by
  have hgo : ∀ n, ∀ l ∈ List.replicate n (Label.go : Label α), l.IsAccess :=
    fun n l hl => .inl (List.eq_of_mem_replicate hl)
  by_cases hempty : q.indexOfQueue q.lastWriteIndex = q.indexOfQueue q.readIndex
  · refine ⟨List.replicate 2 .go, hgo 2, ?_⟩
    simp [List.replicate, run, alone, act, hempty]
  · refine ⟨List.replicate 5 .go, hgo 5, ?_⟩
    simp [List.replicate, run, alone, act, hempty]

theorem pushing_run {q : LockFreeRingQueue α} {data : α} {ls : List (Label α)}
    {s : LockFreeRingQueue α × Pc α × Event α} (hls : ∀ l ∈ ls, l.IsAccess)
    (hrun : run alone (q, .pushLoadRead data, .called) ls = some s) : Pushing q data s := by
  have hstart : Pushing q data (q, .pushLoadRead data, .called) := ⟨rfl, rfl⟩
  exact run_induction (fun _ _ _ hs hl hstep => pushing_step hs hl hstep) ls _ s hstart
    (along_of_forall hls _) hrun

theorem popping_run {q : LockFreeRingQueue α} {ls : List (Label α)}
    {s : LockFreeRingQueue α × Pc α × Event α} (hls : ∀ l ∈ ls, l.IsAccess)
    (hrun : run alone (q, .popLoadRead, .called) ls = some s) : Popping q s := by
  have hstart : Popping q (q, .popLoadRead, .called) := rfl
  exact run_induction (fun _ _ _ hs hl hstep => popping_step hs hl hstep) ls _ s hstart
    (along_of_forall hls _) hrun

/-- A call made by a thread that runs alone comes back, and in one way
only, whatever compare-exchanges fail spuriously. -/
theorem returns_iff (q q' : LockFreeRingQueue α) (c : Call α) (r : Reply α) :
    Returns q c r q' ↔ q.call c = (r, q') := by
  constructor
  · intro h
    cases h with
    | push ls hls hrun =>
      obtain ⟨he, hq⟩ := pushing_run hls hrun
      rw [LockFreeRingQueue.call, ← hq, Event.pushReturned.inj he]
    | pop ls hls hrun =>
      obtain ⟨he, hq⟩ := popping_run hls hrun
      rw [LockFreeRingQueue.call, ← hq, Event.popReturned.inj he]
    | size => rfl
    | isEmpty => rfl
  · intro h
    cases c with
    | push data =>
      obtain ⟨ls, hls, ⟨q₁, pc, e⟩, rfl, hrun⟩ := push_returns q data
      obtain ⟨rfl, rfl⟩ := pushing_run hls hrun
      cases h
      exact .push ls hls hrun
    | pop =>
      obtain ⟨ls, hls, ⟨q₁, pc, e⟩, rfl, hrun⟩ := pop_returns q
      obtain ⟨rfl, rfl⟩ := popping_run hls hrun
      cases h
      exact .pop ls hls hrun
    | size =>
      cases h
      exact .size _
    | isEmpty =>
      cases h
      exact .isEmpty _

/-- A sequence of calls comes back in one way only. -/
theorem calls_iff (calls : List (Call α)) (replies : List (Reply α)) (q q' : LockFreeRingQueue α) :
    Calls q calls replies q' ↔ trace LockFreeRingQueue.call q calls = (replies, q') := by
  induction calls generalizing q replies with
  | nil =>
    constructor
    · intro h
      cases h
      rfl
    · intro h
      cases h
      exact .nil _
  | cons c cs ih =>
    have htrace : trace LockFreeRingQueue.call q (c :: cs) =
        ((q.call c).1 :: (trace LockFreeRingQueue.call (q.call c).2 cs).1,
          (trace LockFreeRingQueue.call (q.call c).2 cs).2) := rfl
    constructor
    · intro h
      cases h with
      | cons first rest =>
        have hfirst := (returns_iff _ _ _ _).mp first
        have hrest := (ih _ _).mp rest
        rw [htrace, hfirst]
        show (_ :: (trace LockFreeRingQueue.call _ cs).1, _) = _
        rw [hrest]
    · intro h
      rw [htrace] at h
      cases h
      exact .cons ((returns_iff _ _ _ _).mpr rfl) ((ih _ _).mpr rfl)

/-! ## The refinement -/

/-- **The queue of one thread is a bounded FIFO list**: whatever the thread
calls, and however often, its calls come back, with the replies of a list
that holds `capacity - 1` elements at most; a push that fails changes
nothing. -/
theorem sequential_fifo [Inhabited α] {size : UInt32} (h1 : 1 ≤ size.toNat)
    (h31 : size.toNat ≤ 2 ^ 31) (calls : List (Call α)) (replies : List (Reply α)) :
    ((∃ q, Calls (.create size) calls replies q) ↔
      replies = (trace fifoCall ⟨(queueSize size).toNat - 1, []⟩ calls).1) ∧
    ∀ q, Calls (.create size) calls replies q → ∀ data q',
      Returns q (.push data) (.pushed false) q' → q' = q := by
  have hsim := (trace_simulates (fun _ _ c h => Represents.call h c) calls _ _
    (represents_create (α := α) (queueSize_isPowTwo h1 h31))).1
  refine ⟨?_, fun q _ data q' hpush => ?_⟩
  · constructor
    · rintro ⟨q, hcalls⟩
      rw [calls_iff] at hcalls
      rw [← hsim, hcalls]
    · intro hreplies
      refine ⟨(trace LockFreeRingQueue.call (.create size) calls).2, (calls_iff _ _ _ _).mpr ?_⟩
      rw [hreplies, ← hsim]
  · have hcall := (returns_iff _ _ _ _).mp hpush
    simp only [LockFreeRingQueue.call, LockFreeRingQueue.push] at hcall
    split at hcall
    · cases hcall
      rfl
    · cases hcall

/-- Three pushes and two pops on a queue that was asked for three slots
and got four. -/
theorem sequential_fifo_three_slots :
    ∃ q : LockFreeRingQueue Nat, Calls (.create 3)
      [.push 10, .push 20, .push 30, .push 40, .size, .pop, .push 50, .pop, .isEmpty]
      [.pushed true, .pushed true, .pushed true, .pushed false, .size 3, .popped (some 10),
        .pushed true, .popped (some 20), .isEmpty false] q :=
  (sequential_fifo (by decide) (by decide) _ _).1.mpr (by decide)

end TinyTcp.Ring
