/-
TinyTcp.Ring.Length — what `size()` and `is_empty()` of the ring queue
report.

`m_length` is counted up after a push has confirmed its element, and down
after a pop has taken one, each by an access of its own. `Lags` says what
the counter is, and `step_lags` that it stays so in every interleaving: the
elements between the two indices, with the pops that have not subtracted
yet, less the pushes that have not added yet, in 32-bit arithmetic. So the counter
is below zero or above `m_size - 1` for a while whenever a pop, or a push,
overtakes the other side's update; `lengthOk_iff_counts` says exactly
which updates lead there.
-/
import TinyTcp.Ring.Occupancy
import TinyTcp.Lib.Parties

namespace TinyTcp.Ring

open TinyTcp.Lib

variable {ι α : Type}

/-! ## The property and the condition -/

/-- `size()` is between `0` and `m_size - 1`. -/
def LengthOk (q : LockFreeRingQueue α) : Prop := q.length ≤ q.size - 1

instance (q : LockFreeRingQueue α) : Decidable (LengthOk q) :=
  inferInstanceAs (Decidable (_ ≤ _))

/-- A push that is confirmed and has not added to `m_length`. -/
def Pc.adding : Pc α → Bool
  | .pushCount => true
  | _ => false

/-- A pop that has its element and has not subtracted from `m_length`. -/
def Pc.subtracting : Pc α → Bool
  | .popCount _ => true
  | _ => false

section Threads

variable [Fintype ι]

def Sys.adding (s : Sys ι α) : UInt32 := .ofNat (parties Pc.adding s.pc)

def Sys.subtracting (s : Sys ι α) : UInt32 := .ofNat (parties Pc.subtracting s.pc)

/-- The elements between the indices together with the pops that have yet to
subtract are not exactly as many as the pushes that have yet to add, when
one is subtracted, and not exactly `m_size - 1` more, when one is added. -/
def Counts (s : Sys ι α) (m : ι × Label α) : Prop :=
  match s.pc m.1, m.2 with
  | .pushCount, .go =>
      s.mem.size = 0 ∨ s.mem.lastWriteIndex - s.mem.readIndex + s.subtracting ≠
        s.adding + (s.mem.size - 1)
  | .popCount _, .go =>
      s.mem.size = 0 ∨ s.mem.lastWriteIndex - s.mem.readIndex + s.subtracting ≠ s.adding
  | _, _ => True

instance (s : Sys ι α) (m : ι × Label α) : Decidable (Counts s m) := by
  unfold Counts
  split
  · infer_instance
  · infer_instance
  · infer_instance

end Threads

/-! ## One access -/

/-- The accesses that move one side of the count, and what all the others leave alone. -/
theorem act_length {q q' : LockFreeRingQueue α} {pc pc' : Pc α} {l : Label α} {e : Event α}
    (hact : act q pc l = some (q', pc', e)) :
    (∃ d w, pc = .pushConfirm d w ∧ pc' = .pushCount ∧
      q' = { q with lastWriteIndex := q.lastWriteIndex + 1 }) ∨
    (∃ d, pc = .popAdvance q.readIndex d ∧ pc' = .popCount d ∧
      q' = { q with readIndex := q.readIndex + 1 }) ∨
    (l = .go ∧ pc = .pushCount ∧ pc' = .idle ∧ q' = { q with length := q.length + 1 }) ∨
    (∃ d, l = .go ∧ pc = .popCount d ∧ pc' = .idle ∧ q' = { q with length := q.length - 1 }) ∨
    (q'.size = q.size ∧ q'.length = q.length ∧ q'.lastWriteIndex = q.lastWriteIndex ∧
      q'.readIndex = q.readIndex ∧ pc.adding = false ∧ pc.subtracting = false ∧
      pc'.adding = false ∧ pc'.subtracting = false) := by
  cases act_iff_access.mp hact with
  | pushConfirm data => exact .inl ⟨data, _, rfl, rfl, rfl⟩
  | popAdvance data => exact .inr (.inl ⟨data, rfl, rfl, rfl⟩)
  | pushCount => exact .inr (.inr (.inl ⟨rfl, rfl, rfl, rfl⟩))
  | popCount data => exact .inr (.inr (.inr (.inl ⟨data, rfl, rfl, rfl, rfl⟩)))
  | _ => exact .inr (.inr (.inr (.inr ⟨rfl, rfl, rfl, rfl, rfl, rfl, rfl, rfl⟩)))

/-! ## What the counter is -/

section Threads

variable [Fintype ι]

/-- The counter, the indices, and the threads that have yet to count. -/
def Lags (s : Sys ι α) : Prop :=
  s.mem.length + s.adding = s.mem.lastWriteIndex - s.mem.readIndex + s.subtracting

theorem init_lags [Inhabited α] (size : UInt32) : Lags (Sys.init (α := α) ι size) := by
  have hadd : parties Pc.adding (Sys.init (α := α) ι size).pc = 0 := parties_eq_zero fun _ => rfl
  have hsub : parties Pc.subtracting (Sys.init (α := α) ι size).pc = 0 :=
    parties_eq_zero fun _ => rfl
  rw [Lags, Sys.adding, Sys.subtracting, hadd, hsub]
  show (0 : UInt32) + 0 = 0 - 0 + 0
  rfl

variable [DecidableEq ι]

/-- The count of one phase after a move of one thread. -/
theorem ofNat_parties_update (p : Pc α → Bool) (f : ι → Pc α) (t : ι) (pc : Pc α) :
    UInt32.ofNat (parties p (Function.update f t pc)) + UInt32.ofNat (p (f t)).toNat =
      UInt32.ofNat (parties p f) + UInt32.ofNat (p pc).toNat := by
  rw [← UInt32.ofNat_add, ← UInt32.ofNat_add, parties_update]

/-- **The counter lags behind the indices** by the updates under way. -/
theorem step_lags {s s' : Sys ι α} {m : ι × Label α} (inv : Lags s)
    (hstep : s.step m = some s') : Lags s' := by
  obtain ⟨mem, pc, e, hact, rfl⟩ := step_act hstep
  obtain ⟨t, l⟩ := m
  have hadd := ofNat_parties_update Pc.adding s.pc t pc
  have hsub := ofNat_parties_update Pc.subtracting s.pc t pc
  have hone : UInt32.ofNat true.toNat = 1 := rfl
  have hzero : UInt32.ofNat false.toNat = 0 := rfl
  rw [Lags, Sys.adding, Sys.subtracting] at inv ⊢
  obtain ⟨d, w, hpc, rfl, rfl⟩ | ⟨d, hpc, rfl, rfl⟩ | ⟨-, hpc, rfl, rfl⟩ | ⟨d, -, hpc, rfl, rfl⟩ |
    ⟨-, hlen, hlast, hread, ha, hs, ha', hs'⟩ := act_length hact
  · rw [hpc] at hadd hsub
    simp only [Pc.adding, Pc.subtracting, hone, hzero] at hadd hsub
    grind
  · rw [hpc] at hadd hsub
    simp only [Pc.adding, Pc.subtracting, hone, hzero] at hadd hsub
    grind
  · rw [hpc] at hadd hsub
    simp only [Pc.adding, Pc.subtracting, hone, hzero] at hadd hsub
    grind
  · rw [hpc] at hadd hsub
    simp only [Pc.adding, Pc.subtracting, hone, hzero] at hadd hsub
    grind
  · rw [ha, ha', hzero] at hadd
    rw [hs, hs', hzero] at hsub
    grind

/-! ## One step -/

theorem one_le_toNat {size : UInt32} (hsize : size ≠ 0) : 1 ≤ size.toNat := by
  rw [Nat.one_le_iff_ne_zero]
  exact fun h => hsize (UInt32.toNat_inj.mp h)

/-- An increment of a counter that is in range leaves it in range if it was not at the top. -/
theorem add_one_le_iff {n size : UInt32} (hn : n ≤ size - 1) (hsize : size ≠ 0) :
    n + 1 ≤ size - 1 ↔ n ≠ size - 1 := by
  rw [UInt32.le_iff_toNat_le] at hn ⊢
  rw [ne_eq, ← UInt32.toNat_inj]
  have hlt := size.toNat_lt
  rw [toNat_sub_one (one_le_toNat hsize)] at hn ⊢
  have hpos := one_le_toNat hsize
  rw [UInt32.toNat_add]
  simp only [UInt32.reduceToNat]
  omega

/-- A decrement leaves it in range if it was not zero. -/
theorem sub_one_le_iff {n size : UInt32} (hn : n ≤ size - 1) (hsize : size ≠ 0) :
    n - 1 ≤ size - 1 ↔ n ≠ 0 := by
  rw [UInt32.le_iff_toNat_le] at hn ⊢
  rw [ne_eq, ← UInt32.toNat_inj]
  have hlt := size.toNat_lt
  rw [toNat_sub_one (one_le_toNat hsize)] at hn ⊢
  have hpos := one_le_toNat hsize
  rw [UInt32.toNat_sub]
  simp only [UInt32.reduceToNat]
  omega

theorem le_mask_of_zero (n : UInt32) : n ≤ 0 - 1 := by
  rw [UInt32.le_iff_toNat_le]
  exact Nat.le_of_lt_succ n.toNat_lt

/-- **One step** keeps the counter in range exactly if it meets the condition. -/
theorem step_lengthOk {s s' : Sys ι α} {m : ι × Label α} (inv : Lags s) (hok : LengthOk s.mem)
    (hstep : s.step m = some s') : LengthOk s'.mem ↔ Counts s m := by
  obtain ⟨mem, pc, e, hact, rfl⟩ := step_act hstep
  obtain ⟨t, l⟩ := m
  rw [Lags] at inv
  rw [LengthOk] at hok
  obtain ⟨d, w, hpc, rfl, rfl⟩ | ⟨d, hpc, rfl, rfl⟩ | ⟨rfl, hpc, rfl, rfl⟩ | ⟨d, rfl, hpc, rfl, rfl⟩ |
    ⟨hsize, hlen, -, -, ha, hs, -, -⟩ := act_length hact
  · simpa only [LengthOk, Counts, hpc, iff_true] using hok
  · simpa only [LengthOk, Counts, hpc, iff_true] using hok
  · simp only [LengthOk, Counts, hpc]
    by_cases hzero : s.mem.size = 0
    · rw [hzero]
      exact iff_of_true (le_mask_of_zero _) (.inl rfl)
    · rw [add_one_le_iff hok hzero, ← inv, or_iff_right hzero, ne_eq, ne_eq, not_iff_not]
      constructor
      · intro h
        rw [h, UInt32.add_comm]
      · intro h
        grind
  · simp only [LengthOk, Counts, hpc]
    by_cases hzero : s.mem.size = 0
    · rw [hzero]
      exact iff_of_true (le_mask_of_zero _) (.inl rfl)
    · rw [sub_one_le_iff hok hzero, ← inv, or_iff_right hzero, ne_eq, ne_eq, not_iff_not]
      constructor
      · intro h
        rw [h, UInt32.zero_add]
      · intro h
        grind
  · have hin : LengthOk mem := by
      rw [LengthOk, hlen, hsize]
      exact hok
    refine iff_of_true hin ?_
    cases hpc : s.pc t with
    | pushCount =>
      rw [hpc] at ha
      cases ha
    | popCount d =>
      rw [hpc] at hs
      cases hs
    | _ => simp only [Counts, hpc]

/-! ## Runs -/

variable [Inhabited α]

/-- **The reported length**, for every requested size and every interleaving of any number of
threads: it is in range in all states exactly if all steps meet the condition. -/
theorem lengthOk_iff_counts (size : UInt32) (moves : List (ι × Label α)) (s : Sys ι α)
    (hrun : run Sys.step (Sys.init ι size) moves = some s) :
    Always Sys.step (fun s => LengthOk s.mem) (Sys.init ι size) moves ↔
      Along Sys.step Counts (Sys.init ι size) moves := by
  refine always_iff_along_of_run (fun s m s' (inv : Lags s) hok hstep => ?_) moves _ s
    (init_lags size) ?_ hrun
  · exact ⟨fun _ => step_lags inv hstep, step_lengthOk inv hok hstep⟩
  · show (0 : UInt32) ≤ queueSize size - 1
    rw [UInt32.le_iff_toNat_le]
    exact Nat.zero_le _

/-- A producer and a consumer taking turns on a queue of two slots. -/
theorem lengthOk_taking_turns :
    ∃ s, run Sys.step (Sys.init (Fin 2) 2)
        (pushMoves 0 10 ++ popMoves 1 ++ pushMoves 0 20 ++ popMoves 1) = some s ∧
      Always Sys.step (fun s => LengthOk (α := Nat) s.mem) (Sys.init (Fin 2) 2)
        (pushMoves 0 10 ++ popMoves 1 ++ pushMoves 0 20 ++ popMoves 1) := by
  obtain ⟨s, hrun⟩ := Option.isSome_iff_exists.mp (show (run Sys.step (Sys.init (Fin 2) 2)
    (pushMoves 0 10 ++ popMoves 1 ++ pushMoves 0 20 ++ popMoves (α := Nat) 1)).isSome = true
    by decide)
  exact ⟨s, hrun, (lengthOk_iff_counts 2 _ s hrun).mpr (by decide)⟩

end Threads

/-- Producer `0` is about to count its element when consumer `1` has taken it
and subtracts. -/
def overtakenCount : List (Fin 2 × Label Nat) :=
  (0, .push 10) :: List.replicate 5 (0, .go) ++ popMoves 1

/-- The counter of the empty queue is at `2 ^ 32 - 1`. -/
theorem overtakenCount_wraps :
    ¬ ∀ (moves : List (Fin 2 × Label Nat)) (s : Sys (Fin 2) Nat),
      run Sys.step (Sys.init (Fin 2) 2) moves = some s → LengthOk s.mem := by
  intro hall
  have hmem : (run Sys.step (Sys.init (Fin 2) 2) overtakenCount).map
      (fun s => (s.mem.length, s.mem.size)) = some (4294967295, 2) := by decide
  obtain ⟨s, hrun, hs⟩ := Option.map_eq_some_iff.mp hmem
  simp only [Prod.mk.injEq] at hs
  obtain ⟨hlength, hsize⟩ := hs
  have hbound := hall overtakenCount s hrun
  rw [LengthOk, hlength, hsize] at hbound
  exact absurd hbound (by decide)

end TinyTcp.Ring
