/-
TinyTcp.Ring.Occupancy — how many slots of the ring queue are taken, for
any number of producers and consumers.

`OccupancyOk` says of a memory that at most `size - 1` slots are reserved
and unconsumed, that the next reservation takes none of these, and that
the two tests on masked indices, for a full and for an empty queue, are
right about the current indices. `occupancy_of_fresh` has it for every
requested size and every interleaving whose index increments are all
`Fresh`: the full test of a push, and the empty test of a pop, still tells
the truth when the compare-exchange that relies on it succeeds.

`staleFullTest` is a run that breaks the bound. A producer loads the
read index, an element is pushed, popped and pushed again, and then the
producer loads the write index: its full test compares the current write
index with a read index of the past, and passes on a full queue.

Nothing is assumed about the order of the confirmations here. That they do
not run ahead of the reservations is a count of the threads between the
two (`Confirming`).
-/
import TinyTcp.Ring.QueueInvariant
import TinyTcp.Ring.QueueDelivery
import Mathlib.Data.Finset.Card

namespace TinyTcp.Ring

open TinyTcp.Lib

variable {ι α : Type}

/-! ## The property and the condition -/

structure OccupancyOk (q : LockFreeRingQueue α) : Prop where
  bound : q.writeIndex - q.readIndex ≤ q.size - 1
  /-- the slot reserved next is not the slot of an unconsumed element -/
  free : ∀ i < q.writeIndex - q.readIndex,
    q.indexOfQueue (q.readIndex + i) ≠ q.indexOfQueue q.writeIndex
  full_iff : q.full = true ↔ q.writeIndex - q.readIndex = q.size - 1
  empty_iff : q.indexOfQueue q.lastWriteIndex = q.indexOfQueue q.readIndex ↔
    q.lastWriteIndex = q.readIndex

/-- A reservation is not made on a queue that is full by now, and a pop
does not advance the read index after it has gone around once, on a queue
that is empty by now. -/
def Fresh (s : Sys ι α) (m : ι × Label α) : Bool :=
  match s.pc m.1, m.2 with
  | .pushReserve _ w, .go => s.mem.writeIndex != w || !s.mem.full
  | .popAdvance r _, .go =>
      s.mem.readIndex != r || (s.hist.thread m.1).loadedAt == s.hist.pops.length ||
        s.mem.indexOfQueue s.mem.lastWriteIndex != s.mem.indexOfQueue s.mem.readIndex
  | _, _ => true

/-! ## The invariant -/

/-- The thread has reserved a slot and not confirmed any. -/
def Pc.confirming : Pc α → Bool
  | .pushStore _ _ | .pushConfirm _ _ => true
  | _ => false

/-- What a read index loaded earlier says about the present. -/
def StaleOk (h : History ι α) (l : Local) : Pc α → Prop
  | .popLoadLast r => r = UInt32.ofNat l.loadedAt ∧ l.loadedAt ≤ h.pops.length
  | .popReadSlot r | .popAdvance r _ =>
      r = UInt32.ofNat l.loadedAt ∧ l.loadedAt ≤ h.pops.length ∧
      (l.loadedAt = h.pops.length → h.pops.length < h.confirmed.length)
  | _ => True

/-- The indices count the reservations, confirmations and pops; `c` is the
number of slots the mask tells apart. -/
structure Counted (c : Nat) (q : LockFreeRingQueue α) (h : History ι α) : Prop where
  mask : IsMask (q.size - 1) c
  read : q.readIndex = UInt32.ofNat h.pops.length
  write : q.writeIndex = UInt32.ofNat h.pushes.length
  last : q.lastWriteIndex = UInt32.ofNat h.confirmed.length
  read_le : h.pops.length ≤ h.confirmed.length
  last_le : h.confirmed.length ≤ h.pushes.length
  room : h.pushes.length < h.pops.length + c

/-- The reservations that are not confirmed are the ones of the threads
between the two. -/
def Confirming (s : Sys ι α) : Prop :=
  ∃ threads : Finset ι, (∀ t, t ∈ threads ↔ (s.pc t).confirming = true) ∧
    s.hist.confirmed.length + threads.card = s.hist.pushes.length

structure Bounded (c : Nat) (s : Sys ι α) : Prop extends Counted c s.mem s.hist where
  confirming : Confirming s
  stale : ∀ t, StaleOk s.hist (s.hist.thread t) (s.pc t)

/-! ## The bound from the invariant -/

theorem occupancyOk_of_counted {c : Nat} {q : LockFreeRingQueue α} {h : History ι α}
    (ok : Counted c q h) : OccupancyOk q := by
  have hc := ok.mask.le
  have hroom := ok.room
  have hread := ok.read_le
  have hlast := ok.last_le
  have hmask : (q.size - 1).toNat = c - 1 := by
    obtain ⟨k, -, -, hm⟩ := ok.mask
    exact hm
  have hdiff : (q.writeIndex - q.readIndex).toNat = h.pushes.length - h.pops.length := by
    rw [ok.write, ok.read]
    exact toNat_ofNat_sub (by omega) (by omega)
  refine { bound := ?_, free := fun i hi heq => ?_, full_iff := ?_, empty_iff := ?_ }
  · rw [UInt32.le_iff_toNat_le, hdiff, hmask]
    omega
  · rw [UInt32.lt_iff_toNat_lt, hdiff] at hi
    have hnext : q.readIndex + i = UInt32.ofNat (h.pops.length + i.toNat) := by
      rw [UInt32.ofNat_add, UInt32.ofNat_toNat, ok.read]
    rw [hnext, ok.write] at heq
    have := ok.mask.and_inj (by omega) (by omega) heq
    omega
  · have hnext : q.writeIndex + 1 = UInt32.ofNat (h.pushes.length + 1) := by
      rw [ok.write, UInt32.ofNat_add]
      rfl
    rw [← UInt32.toNat_inj, hdiff, hmask, LockFreeRingQueue.full, beq_iff_eq, hnext, ok.read]
    constructor
    · intro hfull
      by_contra hne
      have := ok.mask.and_inj (by omega) (by omega) hfull.symm
      omega
    · intro hfull
      refine (ok.mask.and_eq_iff _ _).mpr ?_
      have hturn : h.pushes.length + 1 = h.pops.length + c := by
        have := ok.mask.pos
        omega
      rw [hturn, Nat.add_mod_right]
  · constructor
    · intro heq
      rw [ok.last, ok.read] at heq
      have := ok.mask.and_inj hread (by omega) heq.symm
      rw [ok.last, ok.read, this]
    · intro heq
      rw [heq]

/-- A full test that is right leaves room for one more. -/
theorem Counted.room_of_not_full {c : Nat} {q : LockFreeRingQueue α} {h : History ι α}
    (ok : Counted c q h) (hfull : q.full = false) :
    h.pushes.length + 1 < h.pops.length + c := by
  by_contra hge
  have hroom := ok.room
  have hturn : h.pushes.length + 1 = h.pops.length + c := by omega
  have hnext : q.writeIndex + 1 = UInt32.ofNat (h.pushes.length + 1) := by
    rw [ok.write, UInt32.ofNat_add]
    rfl
  have hslot : q.indexOfQueue (q.writeIndex + 1) = q.indexOfQueue q.readIndex := by
    rw [hnext, ok.read]
    refine (ok.mask.and_eq_iff _ _).mpr ?_
    rw [hturn, Nat.add_mod_right]
  simp [LockFreeRingQueue.full, hslot] at hfull

/-- An empty test that finds the indices apart is right. -/
theorem Counted.read_lt {c : Nat} {q : LockFreeRingQueue α} {h : History ι α}
    (ok : Counted c q h)
    (hne : q.indexOfQueue q.lastWriteIndex ≠ q.indexOfQueue q.readIndex) :
    h.pops.length < h.confirmed.length := by
  refine Nat.lt_of_le_of_ne ok.read_le fun heq => hne ?_
  rw [ok.last, ok.read, heq]

/-! ## What one access does to the indices -/

/-- The accesses that move an index, and what all the others leave alone. -/
theorem act_indices {q q' : LockFreeRingQueue α} {pc pc' : Pc α} {l : Label α} {e : Event α}
    (hact : act q pc l = some (q', pc', e)) :
    (∃ d, e = .reserved d ∧ l = .go ∧ pc = .pushReserve d q.writeIndex ∧
      pc' = .pushStore d q.writeIndex ∧ q' = { q with writeIndex := q.writeIndex + 1 }) ∨
    (∃ d w, e = .confirmed d ∧ pc = .pushConfirm d w ∧ pc' = .pushCount ∧
      q' = { q with lastWriteIndex := q.lastWriteIndex + 1 }) ∨
    (∃ d, e = .consumed d ∧ l = .go ∧ pc = .popAdvance q.readIndex d ∧ pc' = .popCount d ∧
      q' = { q with readIndex := q.readIndex + 1 }) ∨
    ((∀ d, e ≠ .reserved d ∧ e ≠ .confirmed d ∧ e ≠ .consumed d) ∧
      q'.size = q.size ∧ q'.readIndex = q.readIndex ∧ q'.writeIndex = q.writeIndex ∧
      q'.lastWriteIndex = q.lastWriteIndex ∧ pc'.confirming = pc.confirming) := by
  cases act_iff_access.mp hact with
  | pushReserve data => exact .inl ⟨data, rfl, rfl, rfl, rfl, rfl⟩
  | pushConfirm data => exact .inr (.inl ⟨data, _, rfl, rfl, rfl, rfl⟩)
  | popAdvance data => exact .inr (.inr (.inl ⟨data, rfl, rfl, rfl, rfl, rfl⟩))
  | _ => exact .inr (.inr (.inr (by simp [Pc.confirming])))

/-! ## One step -/

/-- A pop that is about to advance the read index has an element to take. -/
theorem pops_lt_of_fresh {c : Nat} {s : Sys ι α} (inv : Bounded c s) {t : ι} {l : Label α}
    (hfresh : Fresh s (t, l) = true) (hl : l = .go) {d : α}
    (hpc : s.pc t = .popAdvance s.mem.readIndex d) :
    s.hist.pops.length < s.hist.confirmed.length := by
  have hstale := inv.stale t
  rw [hpc] at hstale
  obtain ⟨-, -, hready⟩ := hstale
  subst hl
  have htest : (s.hist.thread t).loadedAt = s.hist.pops.length ∨
      s.mem.indexOfQueue s.mem.lastWriteIndex ≠ s.mem.indexOfQueue s.mem.readIndex := by
    simpa [Fresh, hpc] using hfresh
  rcases htest with hsame | hne
  · exact hready hsame
  · exact inv.read_lt hne

/-- What a thread has loaded keeps its meaning while the record grows. -/
theorem StaleOk.mono {h h' : History ι α} {l l' : Local} {pc : Pc α} (ok : StaleOk h l pc)
    (hl : l'.loadedAt = l.loadedAt) (hpops : h.pops.length ≤ h'.pops.length)
    (hconfirmed : h.confirmed.length ≤ h'.confirmed.length) : StaleOk h' l' pc := by
  cases pc with
  | popLoadLast r =>
    obtain ⟨hr, hle⟩ := ok
    exact ⟨by rw [hl, hr], by omega⟩
  | popReadSlot | popAdvance =>
    obtain ⟨hr, hle, hready⟩ := ok
    refine ⟨by rw [hl, hr], by omega, fun heq => ?_⟩
    have := hready (by omega)
    omega
  | _ => trivial

section Step

variable [DecidableEq ι]

/-- The counts of the record move with the indices only. -/
theorem record_counts (h : History ι α) (t : ι) {e : Event α}
    (he : ∀ d, e ≠ .reserved d ∧ e ≠ .confirmed d ∧ e ≠ .consumed d) :
    (h.record t e).pushes = h.pushes ∧ (h.record t e).confirmed = h.confirmed ∧
      (h.record t e).pops = h.pops := by
  cases e with
  | reserved d => exact absurd rfl (he d).1
  | confirmed d => exact absurd rfl (he d).2.1
  | consumed d => exact absurd rfl (he d).2.2
  | _ => exact ⟨rfl, rfl, rfl⟩

/-- One fresh access keeps the counts. -/
theorem act_counted {c : Nat} {s : Sys ι α} (inv : Bounded c s) {t : ι} {l : Label α}
    (hfresh : Fresh s (t, l) = true) {mem : LockFreeRingQueue α} {pc : Pc α} {e : Event α}
    (hact : act s.mem (s.pc t) l = some (mem, pc, e))
    (hroom : (s.hist.record t e).confirmed.length ≤ (s.hist.record t e).pushes.length) :
    Counted c mem (s.hist.record t e) := by
  have ok := inv.toCounted
  obtain ⟨d, rfl, rfl, hpc, rfl, rfl⟩ | ⟨d, w, rfl, hpc, rfl, rfl⟩ | ⟨d, rfl, hl, hpc, rfl, rfl⟩ |
    ⟨he, hsize, hread, hwrite, hlast, -⟩ := act_indices hact
  · -- a reservation, made while the queue is not full
    have hfull : s.mem.full = false := by simpa [Fresh, hpc] using hfresh
    have hroom' := ok.room_of_not_full hfull
    refine { ok with write := ?_, last_le := hroom, room := ?_ }
    · show s.mem.writeIndex + 1 = UInt32.ofNat (s.hist.pushes ++ [d]).length
      rw [ok.write, List.length_append, UInt32.ofNat_add]
      rfl
    · show (s.hist.pushes ++ [d]).length < s.hist.pops.length + c
      rw [List.length_append, List.length_singleton]
      exact hroom'
  · refine { ok with last := ?_, read_le := ?_, last_le := hroom }
    · show s.mem.lastWriteIndex + 1 = UInt32.ofNat (s.hist.confirmed ++ [d]).length
      rw [ok.last, List.length_append, UInt32.ofNat_add]
      rfl
    · show s.hist.pops.length ≤ (s.hist.confirmed ++ [d]).length
      rw [List.length_append]
      exact Nat.le_trans ok.read_le (Nat.le_add_right _ _)
  · -- a pop, which has an element to take
    have hlt := pops_lt_of_fresh inv hfresh hl hpc
    refine { ok with read := ?_, read_le := ?_, room := ?_ }
    · show s.mem.readIndex + 1 = UInt32.ofNat (s.hist.pops ++ [_]).length
      rw [ok.read, List.length_append, UInt32.ofNat_add]
      rfl
    · show (s.hist.pops ++ [_]).length ≤ s.hist.confirmed.length
      rw [List.length_append]
      exact hlt
    · show s.hist.pushes.length < (s.hist.pops ++ [_]).length + c
      have := ok.room
      rw [List.length_append]
      omega
  · obtain ⟨hpushes, hconfirmed, hpops⟩ := record_counts s.hist t he
    exact { mask := by rw [hsize]; exact ok.mask
            read := by rw [hread, hpops]; exact ok.read
            write := by rw [hwrite, hpushes]; exact ok.write
            last := by rw [hlast, hconfirmed]; exact ok.last
            read_le := by rw [hpops, hconfirmed]; exact ok.read_le
            last_le := hroom
            room := by rw [hpushes, hpops]; exact ok.room }

/-- The threads between a reservation and a confirmation stay counted. -/
theorem step_confirming {s s' : Sys ι α} {m : ι × Label α} (hc : Confirming s)
    (hstep : s.step m = some s') : Confirming s' := by
  obtain ⟨mem, pc, e, hact, rfl⟩ := step_act hstep
  obtain ⟨t, l⟩ := m
  obtain ⟨threads, hmem, hcard⟩ := hc
  have hother : ∀ u, u ≠ t → (Function.update s.pc t pc u) = s.pc u :=
    fun u hu => Function.update_of_ne hu _ _
  obtain ⟨d, rfl, -, hpc, rfl, rfl⟩ | ⟨d, w, rfl, hpc, rfl, rfl⟩ | ⟨d, rfl, -, hpc, rfl, rfl⟩ |
    ⟨he, -, -, -, -, hsame⟩ := act_indices hact
  · have hnot : t ∉ threads := by
      rw [hmem, hpc]
      exact Bool.false_ne_true
    refine ⟨insert t threads, fun u => ?_, ?_⟩
    · by_cases hu : u = t
      · subst hu
        simp [Pc.confirming]
      · rw [Finset.mem_insert, hmem u]
        simp only [hother u hu, hu, false_or]
    · show s.hist.confirmed.length + (insert t threads).card = (s.hist.pushes ++ [d]).length
      rw [Finset.card_insert_of_notMem hnot, List.length_append, ← hcard]
      rfl
  · have hin : t ∈ threads := by
      rw [hmem, hpc]
      rfl
    refine ⟨threads.erase t, fun u => ?_, ?_⟩
    · by_cases hu : u = t
      · subst hu
        simp [Pc.confirming]
      · rw [Finset.mem_erase, hmem u]
        simp only [hother u hu, ne_eq, hu, not_false_eq_true, true_and]
    · show (s.hist.confirmed ++ [d]).length + (threads.erase t).card = s.hist.pushes.length
      have := Finset.card_erase_add_one hin
      rw [List.length_append, List.length_singleton]
      omega
  · refine ⟨threads, fun u => ?_, hcard⟩
    by_cases hu : u = t
    · subst hu
      rw [hmem u, hpc]
      simp [Pc.confirming]
    · rw [hmem u]
      simp only [hother u hu]
  · obtain ⟨hpushes, hconfirmed, -⟩ := record_counts s.hist t he
    refine ⟨threads, fun u => ?_, by rw [hpushes, hconfirmed]; exact hcard⟩
    by_cases hu : u = t
    · subst hu
      rw [hmem u, ← hsame]
      simp
    · rw [hmem u]
      simp only [hother u hu]

/-- The moving thread's own loads. -/
theorem act_stale {c : Nat} {s : Sys ι α} (inv : Bounded c s) {t : ι} {l : Label α}
    {mem : LockFreeRingQueue α} {pc : Pc α} {e : Event α}
    (hact : act s.mem (s.pc t) l = some (mem, pc, e)) :
    StaleOk (s.hist.record t e) ((s.hist.record t e).thread t) pc := by
  have hstale := inv.stale t
  replace hact := act_iff_access.mp hact
  generalize s.pc t = pc₀ at hact hstale
  cases hact with
  | popLoadRead =>
    simp only [StaleOk, History.record, History.setLocal, Function.update_self]
    exact ⟨inv.read, Nat.le_refl _⟩
  | popLoadLast r hne =>
    obtain ⟨rfl, hle⟩ := hstale
    refine ⟨rfl, hle, fun heq => inv.read_lt ?_⟩
    have hsame : (s.hist.thread t).loadedAt = s.hist.pops.length := heq
    rw [inv.read, ← hsame]
    exact hne
  | popReadSlot r =>
    simpa only [StaleOk, History.record, History.setLocal, Function.update_self] using hstale
  | _ => trivial

/-- **Every fresh step keeps the bound.** -/
theorem step_bounded {c : Nat} {s s' : Sys ι α} {m : ι × Label α} (inv : Bounded c s)
    (hfresh : Fresh s m = true) (hstep : s.step m = some s') : Bounded c s' := by
  have hconf := step_confirming inv.confirming hstep
  obtain ⟨mem, pc, e, hact, rfl⟩ := step_act hstep
  obtain ⟨t, l⟩ := m
  have hle : (s.hist.record t e).confirmed.length ≤ (s.hist.record t e).pushes.length := by
    obtain ⟨threads, -, hcard⟩ := hconf
    exact hcard ▸ Nat.le_add_right _ _
  refine { toCounted := act_counted inv hfresh hact hle, confirming := hconf, stale := fun u => ?_ }
  by_cases hu : u = t
  · subst hu
    simpa using act_stale inv hact
  · simp only [Function.update_of_ne hu]
    exact (inv.stale u).mono (record_thread_other _ t e hu).2.2 (record_pops_le _ t e)
      (record_confirmed_le _ t e)

end Step

/-! ## Runs -/

/-- Whatever size is asked for, the mask keeps the residue modulo a power
of two; for `2 ^ 31 + 1` the size is `0` and the mask keeps everything. -/
theorem queueSize_mask (size : UInt32) : ∃ c, 2 ≤ c ∧ IsMask (queueSize size - 1) c := by
  by_cases hzero : queueSize size = 0
  · rw [hzero]
    exact ⟨2 ^ 32, by decide, 32, Nat.le_refl _, rfl, by decide⟩
  · have hpow := queueSize_isPowTwo_of_ne_zero hzero
    obtain ⟨k, -, hk, hm⟩ := id hpow
    exact ⟨_, hpow.two_le, k, by omega, hm, hpow.toNat_sub_one⟩

theorem init_bounded [Inhabited α] {c : Nat} (hc : 2 ≤ c) {size : UInt32} (hmask : IsMask (queueSize size - 1) c) :
    Bounded c (Sys.init (α := α) ι size) where
  mask := hmask
  read := rfl
  write := rfl
  last := rfl
  read_le := Nat.le_refl _
  last_le := Nat.le_refl _
  room := Nat.lt_of_lt_of_le (by decide : 0 < 2) (Nat.le_trans hc (Nat.le_add_left _ _))
  confirming := ⟨∅, by intro t; simp [Sys.init, Pc.confirming], rfl⟩
  stale := fun _ => trivial

section Runs

variable [DecidableEq ι] [Inhabited α]

/-- **The occupancy bound**, for every requested size and every
interleaving of fresh steps. -/
theorem occupancy_of_fresh (size : UInt32) (moves : List (ι × Label α)) (s : Sys ι α)
    (hfresh : Along Sys.step (fun s m => Fresh s m = true) (Sys.init ι size) moves)
    (hrun : run Sys.step (Sys.init ι size) moves = some s) : OccupancyOk s.mem := by
  obtain ⟨c, hc, hmask⟩ := queueSize_mask size
  have hinv : Bounded c s :=
    run_induction (fun _ _ _ inv hm hstep => step_bounded inv hm hstep) moves _ s
      (init_bounded hc hmask) hfresh hrun
  exact occupancyOk_of_counted hinv.toCounted

/-- Two producers fill a queue of four slots, and a consumer takes one. -/
theorem occupancy_two_producers :
    ∃ s, run Sys.step (Sys.init (Fin 3) 4)
        (pushMoves 0 10 ++ pushMoves 1 20 ++ pushMoves 0 30 ++ popMoves 2) = some s ∧
      OccupancyOk (α := Nat) s.mem := by
  obtain ⟨s, hrun⟩ := Option.isSome_iff_exists.mp (show (run Sys.step (Sys.init (Fin 3) 4)
    (pushMoves 0 10 ++ pushMoves 1 20 ++ pushMoves 0 30 ++ popMoves (α := Nat) 2)).isSome = true
    by decide)
  exact ⟨s, hrun, occupancy_of_fresh 4 _ s (by decide) hrun⟩

end Runs

/-- Producer `0` loads the read index; an element is pushed, popped and
pushed again; producer `0` loads the write index and reserves. -/
def staleFullTest : List (Fin 3 × Label Nat) :=
  [(producerA, .push 30), (producerA, .go)] ++ pushMoves producerB 10 ++ popMoves consumer ++
    pushMoves producerB 20 ++ [(producerA, .go), (producerA, .go)]

/-- On a queue of two slots both are reserved and unconsumed. -/
theorem staleFullTest_overfull :
    ¬ ∀ (moves : List (Fin 3 × Label Nat)) (s : Sys (Fin 3) Nat),
      run Sys.step (Sys.init (Fin 3) 2) moves = some s →
        s.mem.writeIndex - s.mem.readIndex ≤ s.mem.size - 1 := by
  intro hall
  have hmem : (run Sys.step (Sys.init (Fin 3) 2) staleFullTest).map
      (fun s => (s.mem.writeIndex, s.mem.readIndex, s.mem.size)) = some (3, 1, 2) := by decide
  obtain ⟨s, hrun, hs⟩ := Option.map_eq_some_iff.mp hmem
  simp only [Prod.mk.injEq] at hs
  obtain ⟨hw, hr, hsize⟩ := hs
  have hbound := hall staleFullTest s hrun
  rw [hw, hr, hsize] at hbound
  exact absurd hbound (by decide)

end TinyTcp.Ring
