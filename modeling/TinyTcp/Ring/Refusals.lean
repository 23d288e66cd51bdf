/-
TinyTcp.Ring.Refusals — a `push` or `pop` that returns `false`.

Both calls load two indices, one after the other, and refuse when the
masked values say that the queue is full, or empty. The first load may be
old by then: when the other threads have gone once around the queue, the
second index meets the first one again, and the call refuses on a queue
that was neither full nor empty at any time (`stale_refusals`).

`refusals_justified`: in an interleaving of steps that are `Current` every
refusal is right about the moment of its second load. `Fresh`, the
condition of `Occupancy`, is part of this: on an overfull queue the two
tests say nothing.
-/
import TinyTcp.Ring.Occupancy
import TinyTcp.Ring.Sequential

namespace TinyTcp.Ring

open TinyTcp.Lib

variable {ι α : Type}

/-! ## The property and the condition -/

/-- The next access of the thread is its last one in this call, and the call returns `false`. -/
def PopRefused (s : Sys ι α) (t : ι) : Prop :=
  act s.mem (s.pc t) .go = some (s.mem, .idle, .popReturned none)

def PushRefused (s : Sys ι α) (t : ι) : Prop :=
  act s.mem (s.pc t) .go = some (s.mem, .idle, .pushReturned false)

/-- No confirmed element is unconsumed. -/
def LockFreeRingQueue.Drained (q : LockFreeRingQueue α) : Prop := q.lastWriteIndex = q.readIndex

/-- All slots but one are reserved and unconsumed. -/
def LockFreeRingQueue.Filled (q : LockFreeRingQueue α) : Prop :=
  q.writeIndex - q.readIndex = q.size - 1

/-- A fresh step; and a call that is about to refuse has loaded the read
index that the queue still has. -/
def Current (s : Sys ι α) (m : ι × Label α) : Bool :=
  Fresh s m && match s.pc m.1, m.2 with
    | .pushLoadWrite _ r, .go =>
        s.mem.indexOfQueue (s.mem.writeIndex + 1) != s.mem.indexOfQueue r || s.mem.readIndex == r
    | .popLoadLast r, .go =>
        s.mem.indexOfQueue s.mem.lastWriteIndex != s.mem.indexOfQueue r || s.mem.readIndex == r
    | _, _ => true

instance [DecidableEq α] (l : Label α) : Decidable l.IsAccess :=
  inferInstanceAs (Decidable (_ ∨ _))

section Calls

variable [DecidableEq ι]

/-- Thread `t` enters a call with `l`; it has not returned when `during` is over. -/
structure InCall (s₀ : Sys ι α) (before : List (ι × Label α)) (t : ι) (l : Label α)
    (during : List (ι × Label α)) (s : Sys ι α) : Prop where
  reached : run Sys.step s₀ (before ++ (t, l) :: during) = some s
  accesses : ∀ m ∈ during, m.1 = t → m.2.IsAccess

/-- At some moment of the call the queue was as `p` says. -/
def AtSomeMoment (p : LockFreeRingQueue α → Prop) (s₀ : Sys ι α) (before : List (ι × Label α))
    (t : ι) (l : Label α) (during : List (ι × Label α)) : Prop :=
  ∃ k ≤ during.length, ∃ s, run Sys.step s₀ (before ++ (t, l) :: during.take k) = some s ∧ p s.mem

end Calls

/-! ## Refusals -/

theorem act_popRefused {q q' : LockFreeRingQueue α} {pc : Pc α} {l : Label α}
    (hact : act q pc l = some (q', .idle, .popReturned none)) :
    ∃ r, pc = .popLoadLast r ∧ q.indexOfQueue q.lastWriteIndex = q.indexOfQueue r := by
  cases act_iff_access.mp hact with
  | popRefused r hempty => exact ⟨r, rfl, hempty⟩

theorem act_pushRefused {q q' : LockFreeRingQueue α} {pc : Pc α} {l : Label α}
    (hact : act q pc l = some (q', .idle, .pushReturned false)) :
    ∃ data r, pc = .pushLoadWrite data r ∧
      q.indexOfQueue (q.writeIndex + 1) = q.indexOfQueue r := by
  cases act_iff_access.mp hact with
  | pushRefused data r hfull => exact ⟨data, r, rfl, hfull⟩

/-- A pop refuses after its second load. -/
theorem popRefused_iff {s : Sys ι α} {t : ι} :
    PopRefused s t ↔ ∃ r, s.pc t = .popLoadLast r ∧
      s.mem.indexOfQueue s.mem.lastWriteIndex = s.mem.indexOfQueue r := by
  constructor
  · exact act_popRefused
  · rintro ⟨r, hpc, heq⟩
    rw [PopRefused, hpc, act, if_pos heq]

/-- So does a push. -/
theorem pushRefused_iff {s : Sys ι α} {t : ι} :
    PushRefused s t ↔ ∃ data r, s.pc t = .pushLoadWrite data r ∧
      s.mem.indexOfQueue (s.mem.writeIndex + 1) = s.mem.indexOfQueue r := by
  constructor
  · exact act_pushRefused
  · rintro ⟨data, r, hpc, heq⟩
    rw [PushRefused, hpc, act, if_pos heq]

theorem pushRefused_of_indices {s : Sys ι α} {t : ι} {data : α} {r w size : UInt32}
    (hpc : s.pc t = .pushLoadWrite data r) (hwrite : s.mem.writeIndex = w)
    (hsize : s.mem.size = size) (hmask : (w + 1) &&& (size - 1) = r &&& (size - 1)) :
    PushRefused s t := by
  refine pushRefused_iff.mpr ⟨data, r, hpc, ?_⟩
  rw [LockFreeRingQueue.indexOfQueue, LockFreeRingQueue.indexOfQueue, hwrite, hsize]
  exact hmask

theorem drained_of_refused {s : Sys ι α} {t : ι} (ok : OccupancyOk s.mem) (h : PopRefused s t)
    (hcurrent : Current s (t, .go) = true) : s.mem.Drained := by
  obtain ⟨r, hpc, heq⟩ := popRefused_iff.mp h
  have hread : s.mem.readIndex = r := by simpa [Current, Fresh, hpc, heq] using hcurrent
  exact ok.empty_iff.mp (by rw [heq, hread])

theorem filled_of_refused {s : Sys ι α} {t : ι} (ok : OccupancyOk s.mem) (h : PushRefused s t)
    (hcurrent : Current s (t, .go) = true) : s.mem.Filled := by
  obtain ⟨data, r, hpc, heq⟩ := pushRefused_iff.mp h
  have hread : s.mem.readIndex = r := by simpa [Current, Fresh, hpc, heq] using hcurrent
  refine ok.full_iff.mp ?_
  rw [LockFreeRingQueue.full, heq, hread, beq_self_eq_true]

/-! ## Runs -/

section Runs

variable [DecidableEq ι]

/-- The last moment of the call is one of its moments. -/
theorem InCall.atEnd {s₀ s : Sys ι α} {before during : List (ι × Label α)} {t : ι} {l : Label α}
    (h : InCall s₀ before t l during s) {p : LockFreeRingQueue α → Prop} (hp : p s.mem) :
    AtSomeMoment p s₀ before t l during := by
  refine ⟨during.length, Nat.le_refl _, s, ?_, hp⟩
  rw [List.take_length]
  exact h.reached

/-- **A refusal is justified**, for every requested size and every interleaving of current
steps, by a moment of the refused call. -/
theorem refusals_justified [Inhabited α] (size : UInt32) {before during : List (ι × Label α)}
    {t : ι} {l : Label α} {s : Sys ι α} (hcall : InCall (Sys.init ι size) before t l during s)
    (hcurrent : Along Sys.step (fun s m => Current s m = true) (Sys.init ι size)
      ((before ++ (t, l) :: during) ++ [(t, .go)])) :
    (PopRefused s t →
      AtSomeMoment LockFreeRingQueue.Drained (Sys.init ι size) before t l during) ∧
    (PushRefused s t →
      AtSomeMoment LockFreeRingQueue.Filled (Sys.init ι size) before t l during) := by
  obtain ⟨hbefore, hlast⟩ := hcurrent.append hcall.reached
  have hfresh : Along Sys.step (fun s m => Fresh s m = true) (Sys.init ι size)
      (before ++ (t, l) :: during) :=
    hbefore.mono fun s m h => (Bool.and_eq_true_iff.mp h).1
  have ok := occupancy_of_fresh size _ s hfresh hcall.reached
  constructor
  · intro h
    exact hcall.atEnd (drained_of_refused ok h hlast.1)
  · intro h
    exact hcall.atEnd (filled_of_refused ok h hlast.1)

/-- When no moment of a call passes a test, it was at no moment as the test says. -/
theorem not_atSomeMoment {p : LockFreeRingQueue α → Prop}
    (test : LockFreeRingQueue α → Bool) (htest : ∀ q, p q → test q = true)
    {s₀ : Sys ι α} {before during : List (ι × Label α)} {t : ι} {l : Label α}
    (hno : ∀ k < during.length + 1, (run Sys.step s₀ (before ++ (t, l) :: during.take k)).all
      (fun s => !test s.mem) = true) : ¬ AtSomeMoment p s₀ before t l during := by
  rintro ⟨k, hk, s, hrun, hp⟩
  have hall := hno k (Nat.lt_succ_of_le hk)
  rw [hrun, Option.all_some, htest s.mem hp] at hall
  cases hall

end Runs

/-- A push on a queue of two slots that holds an element, by the second of two producers. -/
theorem refusals_justified_two_producers :
    ∃ s, InCall (Sys.init (Fin 2) 2) (pushMoves 0 10) 1 (.push 20) [(1, .go)] s ∧
      PushRefused s 1 ∧ AtSomeMoment (α := Nat) LockFreeRingQueue.Filled (Sys.init (Fin 2) 2)
        (pushMoves 0 10) 1 (.push 20) [(1, .go)] := by
  have hpc : (run Sys.step (Sys.init (Fin 2) 2)
      (pushMoves 0 10 ++ (1, .push (20 : Nat)) :: [(1, .go)])).map
        (fun s => (s.pc 1, s.mem.writeIndex, s.mem.size)) = some (.pushLoadWrite 20 0, 1, 2) := by
    decide
  obtain ⟨s, hrun, hs⟩ := Option.map_eq_some_iff.mp hpc
  simp only [Prod.mk.injEq] at hs
  obtain ⟨hpc, hwrite, hsize⟩ := hs
  have hcall : InCall (Sys.init (Fin 2) 2) (pushMoves 0 10) 1 (.push 20) [(1, .go)] s :=
    ⟨hrun, fun m hm _ => .inl (by rw [List.mem_singleton.mp hm])⟩
  have hrefused : PushRefused s 1 := pushRefused_of_indices hpc hwrite hsize rfl
  exact ⟨s, hcall, hrefused, (refusals_justified 2 hcall (by decide)).2 hrefused⟩

/-- A slow consumer loads the read index of a queue of four slots; while it waits for its
second load two elements are pushed and one is popped, so that two to three are there. -/
def lappedPop (slow producer consumer : ι) : List (ι × Label Nat) :=
  [(slow, .go)] ++ pushMoves producer 30 ++ popMoves consumer ++ pushMoves producer 40

/-- A slow producer does the same while three elements go through the queue, one at a time. -/
def lappedPush (slow producer consumer : ι) : List (ι × Label Nat) :=
  [(slow, .go)] ++ (pushMoves producer 10 ++ popMoves consumer) ++
    (pushMoves producer 20 ++ popMoves consumer) ++ (pushMoves producer 30 ++ popMoves consumer)

/-- The pop finds the queue empty, which it never was; the push finds it full. -/
theorem stale_refusals :
    (¬ ∀ (before during : List (Fin 3 × Label Nat)) (t : Fin 3) (l : Label Nat) (s : Sys (Fin 3) Nat),
      InCall (Sys.init (Fin 3) 4) before t l during s → PopRefused s t →
        AtSomeMoment LockFreeRingQueue.Drained (Sys.init (Fin 3) 4) before t l during) ∧
    ¬ ∀ (before during : List (Fin 3 × Label Nat)) (t : Fin 3) (l : Label Nat) (s : Sys (Fin 3) Nat),
      InCall (Sys.init (Fin 3) 4) before t l during s → PushRefused s t →
        AtSomeMoment LockFreeRingQueue.Filled (Sys.init (Fin 3) 4) before t l during := by
  constructor
  · intro hall
    have hlast : (run Sys.step (Sys.init (Fin 3) 4)
        (pushMoves 0 10 ++ pushMoves 0 20 ++ (1, .pop) :: lappedPop 1 0 2)).map
          (fun s => (s.pc 1, s.mem.lastWriteIndex, s.mem.size)) = some (.popLoadLast 0, 4, 4) := by
      decide
    obtain ⟨s, hrun, hs⟩ := Option.map_eq_some_iff.mp hlast
    simp only [Prod.mk.injEq] at hs
    obtain ⟨hpc, hlast, hsize⟩ := hs
    have hrefused : PopRefused s 1 := by
      refine popRefused_iff.mpr ⟨0, hpc, ?_⟩
      rw [LockFreeRingQueue.indexOfQueue, LockFreeRingQueue.indexOfQueue, hlast, hsize]
      rfl
    refine not_atSomeMoment (fun q => q.lastWriteIndex == q.readIndex) ?_ ?_
      (hall _ _ 1 .pop s ⟨hrun, by decide⟩ hrefused)
    · intro q hq
      exact beq_iff_eq.mpr hq
    · decide
  · intro hall
    have hlast : (run Sys.step (Sys.init (Fin 3) 4) ([] ++ (1, .push 99) :: lappedPush 1 0 2)).map
          (fun s => (s.pc 1, s.mem.writeIndex, s.mem.size)) = some (.pushLoadWrite 99 0, 3, 4) := by
      decide
    obtain ⟨s, hrun, hs⟩ := Option.map_eq_some_iff.mp hlast
    simp only [Prod.mk.injEq] at hs
    obtain ⟨hpc, hwrite, hsize⟩ := hs
    have hrefused : PushRefused s 1 := pushRefused_of_indices hpc hwrite hsize rfl
    refine not_atSomeMoment (fun q => q.writeIndex - q.readIndex == q.size - 1) ?_ ?_
      (hall _ _ 1 (.push 99) s ⟨hrun, by decide⟩ hrefused)
    · intro q hq
      exact beq_iff_eq.mpr hq
    · decide

end TinyTcp.Ring
