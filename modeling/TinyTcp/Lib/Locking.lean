/-
TinyTcp.Lib.Locking — threads that take locks in an order do not block each
other forever.

A thread has a list of actions to do, each of which takes a lock, shared or
exclusive, or gives back the one it took last. A `LockPolicy` says which of
the threads that wait for a lock may have it; all it has to promise is that
conflicting holders are kept apart and that a lock nobody holds is given to
one of those who wait for it. Readers may be preferred, or writers.

`LockProg` are the programs of critical sections inside each other, and
`Above` says that the sections inside a section are of locks of higher rank.
Threads that run such programs can always go on (`exists_step`), and since
each step is one action less to do, every run that cannot be continued has
done everything (`run_complete`).

## How the proof goes

Among the threads that have something to do take one that waits for a lock
of the highest rank. Who holds this lock would have to wait for a higher one.
-/
import TinyTcp.Lib.Run
import TinyTcp.Lib.Claims
import Mathlib.Data.List.MinMax
import Mathlib.Algebra.Ring.Nat

namespace TinyTcp.Lib

variable {L : Type}

/-! ## Threads and locks -/

inductive LockMode where
  | shared
  | exclusive
  deriving DecidableEq, Repr

/-- Both may hold a lock at a time. -/
def LockMode.compatible (m m' : LockMode) : Bool := m = .shared && m' = .shared

theorem LockMode.compatible_comm (m m' : LockMode) : m.compatible m' = m'.compatible m :=
  Bool.and_comm _ _

inductive LockAct (L : Type) where
  | acquire (l : L) (mode : LockMode)
  | release
  deriving DecidableEq, Repr

/-- The locks it holds, the last one first, and what it has to do. -/
structure LockThread (L : Type) where
  held : List (L × LockMode)
  todo : List (LockAct L)
  deriving DecidableEq, Repr

/-- The lock it waits for. -/
def LockThread.wants (t : LockThread L) : Option (L × LockMode) :=
  match t.todo with
  | .acquire l mode :: _ => some (l, mode)
  | _ => none

/-- Which thread that waits for a lock may have it now. -/
structure LockPolicy (L : Type) where
  grants : List (LockThread L) → Nat → Bool
  safe : ∀ (ts : List (LockThread L)) k t l mode, grants ts k = true → ts[k]? = some t →
    t.wants = some (l, mode) → ∀ u ∈ ts, ∀ mode', (l, mode') ∈ u.held → mode.compatible mode' = true
  live : ∀ (ts : List (LockThread L)) t l mode, t ∈ ts → t.wants = some (l, mode) →
    (∀ u ∈ ts, ∀ mode', (l, mode') ∉ u.held) →
      ∃ k u mode', ts[k]? = some u ∧ u.wants = some (l, mode') ∧ grants ts k = true

namespace LockPolicy

variable (policy : LockPolicy L)

/-- The thread `k` does its next action, unless it has to wait. -/
def step (ts : List (LockThread L)) (k : Nat) : Option (List (LockThread L)) :=
  match ts[k]? with
  | none => none
  | some t =>
      match t.todo with
      | [] => none
      | .acquire l mode :: todo =>
          if policy.grants ts k then some (ts.set k ⟨(l, mode) :: t.held, todo⟩) else none
      | .release :: todo => some (ts.set k ⟨t.held.tail, todo⟩)

end LockPolicy

/-! ## Order -/

/-- What is held is of lower rank than what is taken next, and nothing is
held in the end. -/
def InOrder (rank : L → Nat) : List (L × LockMode) → List (LockAct L) → Prop
  | held, [] => held = []
  | held, .acquire l mode :: todo =>
      (∀ h ∈ held, rank h.1 < rank l) ∧ InOrder rank ((l, mode) :: held) todo
  | held, .release :: todo => held ≠ [] ∧ InOrder rank held.tail todo

def LockThread.Ordered (rank : L → Nat) (t : LockThread L) : Prop := InOrder rank t.held t.todo

/-- Critical sections. -/
inductive LockProg (L : Type) where
  | skip
  | seq (p q : LockProg L)
  | locked (l : L) (mode : LockMode) (body : LockProg L)
  deriving Repr

namespace LockProg

def acts : LockProg L → List (LockAct L)
  | skip => []
  | seq p q => p.acts ++ q.acts
  | locked l mode body => .acquire l mode :: (body.acts ++ [.release])

/-- The programs one after another. -/
def all : List (LockProg L) → LockProg L
  | [] => skip
  | p :: ps => seq p (all ps)

/-- All locks are of at least this rank, and of a higher one than those around them. -/
def Above (rank : L → Nat) (n : Nat) : LockProg L → Prop
  | skip => True
  | seq p q => p.Above rank n ∧ q.Above rank n
  | locked l _ body => n ≤ rank l ∧ body.Above rank (rank l + 1)

theorem all_above {rank : L → Nat} {n : Nat} {ps : List (LockProg L)}
    (h : ∀ p ∈ ps, p.Above rank n) : (all ps).Above rank n := by
  induction ps with
  | nil => trivial
  | cons p ps ih =>
    exact ⟨h p List.mem_cons_self, ih fun q hq => h q (List.mem_cons_of_mem p hq)⟩

theorem Above.mono {rank : L → Nat} {n n' : Nat} (hle : n' ≤ n) {p : LockProg L}
    (h : p.Above rank n) : p.Above rank n' := by
  induction p with
  | skip => trivial
  | seq p q ihp ihq => exact ⟨ihp h.1, ihq h.2⟩
  | locked l mode body ih => exact ⟨Nat.le_trans hle h.1, h.2⟩

/-- A program that fits above what is held is done in order. -/
theorem Above.inOrder {rank : L → Nat} {n : Nat} {p : LockProg L} (h : p.Above rank n)
    {held : List (L × LockMode)} {todo : List (LockAct L)} (hheld : ∀ x ∈ held, rank x.1 < n)
    (htodo : InOrder rank held todo) : InOrder rank held (p.acts ++ todo) := by
  induction p generalizing n held todo with
  | skip => exact htodo
  | seq p q ihp ihq =>
    rw [acts, List.append_assoc]
    exact ihp h.1 hheld (ihq h.2 hheld htodo)
  | locked l mode body ih =>
    obtain ⟨hle, hbody⟩ := h
    have hbelow : ∀ x ∈ held, rank x.1 < rank l := fun x hx => Nat.lt_of_lt_of_le (hheld x hx) hle
    rw [acts, List.cons_append, List.append_assoc]
    refine ⟨hbelow, ih hbody ?_ ⟨List.cons_ne_nil _ _, htodo⟩⟩
    intro x hx
    rcases List.mem_cons.mp hx with rfl | hx
    · exact Nat.lt_succ_self _
    · exact Nat.lt_succ_of_lt (hbelow x hx)

end LockProg

/-- A thread that has programs to do, one after another. -/
def LockThread.start (ps : List (LockProg L)) : LockThread L := ⟨[], (LockProg.all ps).acts⟩

theorem LockThread.start_ordered {rank : L → Nat} {ps : List (LockProg L)}
    (h : ∀ p ∈ ps, p.Above rank 0) : (LockThread.start ps).Ordered rank := by
  have hacts : InOrder rank [] ((LockProg.all ps).acts ++ []) :=
    (LockProg.all_above h).inOrder (fun _ hx => absurd hx List.not_mem_nil) rfl
  rw [List.append_nil] at hacts
  exact hacts

/-! ## One step -/

namespace LockPolicy

variable {policy : LockPolicy L} {ts ts' : List (LockThread L)} {k : Nat} {rank : L → Nat}

/-- The two steps of a thread. -/
theorem step_cases (h : policy.step ts k = some ts') : ∃ t, ts[k]? = some t ∧
    ((∃ l mode todo, t.todo = .acquire l mode :: todo ∧ policy.grants ts k = true ∧
        ts' = ts.set k ⟨(l, mode) :: t.held, todo⟩) ∨
      ∃ todo, t.todo = .release :: todo ∧ ts' = ts.set k ⟨t.held.tail, todo⟩) := by
  unfold step at h
  split at h
  · cases h
  · next t ht =>
    refine ⟨t, ht, ?_⟩
    split at h
    · cases h
    · next l mode todo htodo =>
      split at h
      · next hgrants =>
        cases h
        exact Or.inl ⟨l, mode, todo, htodo, hgrants, rfl⟩
      · cases h
    · next todo htodo =>
      cases h
      exact Or.inr ⟨todo, htodo, rfl⟩

/-- The threads keep to the order. -/
theorem step_ordered (hts : ∀ t ∈ ts, t.Ordered rank) (h : policy.step ts k = some ts') :
    ∀ t ∈ ts', t.Ordered rank := by
  obtain ⟨t, ht, hcase⟩ := step_cases h
  have hord := hts t (List.mem_of_getElem? ht)
  unfold LockThread.Ordered at hord
  intro u hu
  rcases hcase with ⟨l, mode, todo, htodo, -, rfl⟩ | ⟨todo, htodo, rfl⟩
  · rw [htodo] at hord
    rcases List.mem_or_eq_of_mem_set hu with hu | rfl
    · exact hts u hu
    · exact hord.2
  · rw [htodo] at hord
    rcases List.mem_or_eq_of_mem_set hu with hu | rfl
    · exact hts u hu
    · exact hord.2

theorem isSome_step_of_release {t : LockThread L} {todo : List (LockAct L)} (hk : ts[k]? = some t)
    (htodo : t.todo = .release :: todo) : (policy.step ts k).isSome = true := by
  simp [step, hk, htodo]

theorem isSome_step_of_grants {t : LockThread L} {l : L} {mode : LockMode} (hk : ts[k]? = some t)
    (hwants : t.wants = some (l, mode)) (hgrants : policy.grants ts k = true) :
    (policy.step ts k).isSome = true := by
  unfold LockThread.wants at hwants
  split at hwants
  · next l' mode' todo htodo => simp [step, hk, htodo, hgrants]
  · cases hwants

end LockPolicy

namespace LockThread

variable {t : LockThread L} {rank : L → Nat}

/-- What a thread holds is of lower rank than what it wants. -/
theorem Ordered.lt_of_wants (h : t.Ordered rank) {l l' : L} {mode mode' : LockMode}
    (hheld : (l, mode) ∈ t.held) (hwants : t.wants = some (l', mode')) : rank l < rank l' := by
  unfold wants at hwants
  split at hwants
  · next l'' mode'' todo htodo =>
    cases hwants
    unfold Ordered at h
    rw [htodo] at h
    exact h.1 _ hheld
  · cases hwants

/-- A thread that does not give back a lock next, and holds one, wants another. -/
theorem Ordered.wants_of_held (h : t.Ordered rank) (hheld : t.held ≠ [])
    (hnot : ∀ todo, t.todo ≠ .release :: todo) : ∃ w, t.wants = some w := by
  unfold Ordered at h
  cases htodo : t.todo with
  | nil =>
    rw [htodo] at h
    exact absurd h hheld
  | cons act todo =>
    cases act with
    | acquire l mode => exact ⟨(l, mode), by simp [wants, htodo]⟩
    | release => exact absurd htodo (hnot todo)

end LockThread

namespace LockPolicy

variable {policy : LockPolicy L} {ts ts' : List (LockThread L)} {k : Nat} {rank : L → Nat}

/-- **Some thread can go on**, unless all have come to their end. -/
theorem exists_step (policy : LockPolicy L) (hts : ∀ t ∈ ts, t.Ordered rank) :
    (∀ t ∈ ts, t.todo = []) ∨ ∃ k, (policy.step ts k).isSome = true := by
  by_contra hstuck
  obtain ⟨hdone, hstuck⟩ := not_or.mp hstuck
  have hrelease : ∀ t ∈ ts, ∀ todo, t.todo ≠ .release :: todo := by
    intro t ht todo htodo
    obtain ⟨k, hk⟩ := List.mem_iff_getElem?.mp ht
    exact hstuck ⟨k, isSome_step_of_release hk htodo⟩
  -- a lock of the highest rank that someone waits for
  have hsome : ts.filterMap LockThread.wants ≠ [] := by
    intro hnil
    refine hdone fun t ht => ?_
    have hwants := List.filterMap_eq_nil_iff.mp hnil t ht
    cases htodo : t.todo with
    | nil => rfl
    | cons act todo =>
      cases act with
      | acquire l mode => simp [LockThread.wants, htodo] at hwants
      | release => exact absurd htodo (hrelease t ht todo)
  obtain ⟨⟨l, mode⟩, hmax⟩ := Option.isSome_iff_exists.mp
    (Option.isSome_iff_ne_none.mpr fun hnone =>
      hsome (List.argmax_eq_none (f := fun w : L × LockMode => rank w.1).mp hnone))
  obtain ⟨t, ht, hwants⟩ := List.mem_filterMap.mp (List.argmax_mem hmax)
  by_cases hheld : ∃ u ∈ ts, ∃ mode', (l, mode') ∈ u.held
  · -- its holder waits for a higher one
    obtain ⟨u, hu, mode', hin⟩ := hheld
    obtain ⟨⟨l', m'⟩, hw⟩ := (hts u hu).wants_of_held (List.ne_nil_of_mem hin) (hrelease u hu)
    have hlt := (hts u hu).lt_of_wants hin hw
    have hle := List.le_of_mem_argmax (List.mem_filterMap.mpr ⟨u, hu, hw⟩) hmax
    exact Nat.not_lt.mpr hle hlt
  · have hfree : ∀ u ∈ ts, ∀ mode', (l, mode') ∉ u.held :=
      fun u hu mode' hin => hheld ⟨u, hu, mode', hin⟩
    obtain ⟨k, u, mode', hk, hu, hgrants⟩ := policy.live ts t l mode ht hwants hfree
    exact hstuck ⟨k, isSome_step_of_grants hk hu hgrants⟩

/-! ## Whole runs -/

/-- The actions that are left. -/
def work (ts : List (LockThread L)) : Nat := (ts.map fun t => t.todo.length).sum

theorem step_work (h : policy.step ts k = some ts') : work ts = work ts' + 1 := by
  obtain ⟨t, ht, hcase⟩ := step_cases h
  obtain ⟨rest, hsum, hset⟩ := exists_sum_rest (fun t : LockThread L => t.todo.length) ht
  unfold work
  rcases hcase with ⟨l, mode, todo, htodo, -, rfl⟩ | ⟨todo, htodo, rfl⟩
  · rw [hsum, hset, htodo, List.length_cons, Nat.add_right_comm]
  · rw [hsum, hset, htodo, List.length_cons, Nat.add_right_comm]

/-- A run is as long as the work it has done. -/
theorem run_work : ∀ {ks : List Nat} {ts : List (LockThread L)}, run policy.step ts ks = some ts' →
    work ts = work ts' + ks.length
  | [], ts, hrun => by
    cases hrun
    rfl
  | k :: ks, ts, hrun => by
    cases hstep : policy.step ts k with
    | none => simp [run, hstep] at hrun
    | some ts₁ =>
      rw [run_cons hstep] at hrun
      rw [step_work hstep, run_work hrun, List.length_cons]
      omega

theorem run_ordered (hts : ∀ t ∈ ts, t.Ordered rank) {ks : List Nat}
    (hrun : run policy.step ts ks = some ts') : ∀ t ∈ ts', t.Ordered rank :=
  run_induction (fun _ _ _ hts _ hstep => step_ordered hts hstep) ks ts ts' hts
    (along_of_forall (p := fun _ => True) (fun _ _ => trivial) ts) hrun

/-- Conflicting holders are kept apart. -/
def Exclusive (ts : List (LockThread L)) : Prop :=
  ∀ (i j : Nat) (t u : LockThread L) (l : L) (mode mode' : LockMode), i ≠ j → ts[i]? = some t → ts[j]? = some u →
    (l, mode) ∈ t.held → (l, mode') ∈ u.held → mode.compatible mode' = true

/-- What is held after a step was held before, or has been granted. -/
theorem step_held (h : policy.step ts k = some ts') {i : Nat} {t : LockThread L} {l : L}
    {mode : LockMode} (hi : ts'[i]? = some t) (hin : (l, mode) ∈ t.held) :
    (∃ t₀, ts[i]? = some t₀ ∧ (l, mode) ∈ t₀.held) ∨
      i = k ∧ ∀ u ∈ ts, ∀ mode', (l, mode') ∈ u.held → mode.compatible mode' = true := by
  obtain ⟨t₀, ht₀, hcase⟩ := step_cases h
  by_cases hik : i = k
  · subst hik
    rcases hcase with ⟨l', mode', todo, htodo, hgrants, rfl⟩ | ⟨todo, htodo, rfl⟩
    · rw [List.getElem?_set_self (List.getElem?_eq_some_iff.mp ht₀).1] at hi
      cases hi
      rcases List.mem_cons.mp hin with heq | hin
      · cases heq
        exact Or.inr ⟨rfl, policy.safe ts i t₀ l mode hgrants ht₀ (by simp [LockThread.wants, htodo])⟩
      · exact Or.inl ⟨t₀, ht₀, hin⟩
    · rw [List.getElem?_set_self (List.getElem?_eq_some_iff.mp ht₀).1] at hi
      cases hi
      exact Or.inl ⟨t₀, ht₀, List.mem_of_mem_tail hin⟩
  · left
    rcases hcase with ⟨l', mode', todo, -, -, rfl⟩ | ⟨todo, -, rfl⟩
    · exact ⟨t, by rwa [List.getElem?_set_ne (Ne.symm hik)] at hi, hin⟩
    · exact ⟨t, by rwa [List.getElem?_set_ne (Ne.symm hik)] at hi, hin⟩

theorem step_exclusive (hts : Exclusive ts) (h : policy.step ts k = some ts') : Exclusive ts' := by
  intro i j t u l mode mode' hij hi hj ht hu
  rcases step_held h hi ht with ⟨t₀, ht₀, hin⟩ | ⟨rfl, hgranted⟩
  · rcases step_held h hj hu with ⟨u₀, hu₀, hin'⟩ | ⟨rfl, hgranted⟩
    · exact hts i j t₀ u₀ l mode mode' hij ht₀ hu₀ hin hin'
    · rw [LockMode.compatible_comm]
      exact hgranted t₀ (List.mem_of_getElem? ht₀) mode hin
  · rcases step_held h hj hu with ⟨u₀, hu₀, hin'⟩ | ⟨rfl, -⟩
    · exact hgranted u₀ (List.mem_of_getElem? hu₀) mode' hin'
    · exact absurd rfl hij

theorem run_exclusive (hts : Exclusive ts) {ks : List Nat} (hrun : run policy.step ts ks = some ts') :
    Exclusive ts' :=
  run_induction (fun _ _ _ hts _ hstep => step_exclusive hts hstep) ks ts ts' hts
    (along_of_forall (p := fun _ => True) (fun _ _ => trivial) ts) hrun

/-- Threads that hold nothing yet. -/
theorem start_exclusive (programs : List (List (LockProg L))) :
    Exclusive (programs.map LockThread.start) := by
  intro i j t u l mode mode' _ hi _ ht _
  obtain ⟨ps, -, rfl⟩ := List.mem_map.mp (List.mem_of_getElem? hi)
  cases ht

/-- **Every run goes on or has done everything.** Threads that run programs
in order are never all blocked, conflicting holders are kept apart at any
time, and a run that cannot be continued has come to the end of every
program, in as many steps as there are actions. -/
theorem run_complete (policy : LockPolicy L) {programs : List (List (LockProg L))}
    (habove : ∀ ps ∈ programs, ∀ p ∈ ps, p.Above rank 0) {ks : List Nat}
    (hrun : run policy.step (programs.map LockThread.start) ks = some ts) :
    Exclusive ts ∧ ks.length ≤ work (programs.map LockThread.start) ∧
      ((∃ k, (policy.step ts k).isSome = true) ∨
        (∀ t ∈ ts, t.todo = [] ∧ t.held = []) ∧ ks.length = work (programs.map LockThread.start)) := by
  have hstart : ∀ t ∈ programs.map LockThread.start, t.Ordered rank := by
    intro t ht
    obtain ⟨ps, hps, rfl⟩ := List.mem_map.mp ht
    exact LockThread.start_ordered (habove ps hps)
  have hts := run_ordered hstart hrun
  have hwork := run_work hrun
  refine ⟨run_exclusive (start_exclusive programs) hrun, by omega, ?_⟩
  rcases exists_step policy hts with hdone | hgo
  · right
    have hzero : work ts = 0 := by
      refine List.sum_eq_zero fun n hn => ?_
      obtain ⟨t, ht, rfl⟩ := List.mem_map.mp hn
      simp [hdone t ht]
    refine ⟨fun t ht => ⟨hdone t ht, ?_⟩, by omega⟩
    have hord := hts t ht
    unfold LockThread.Ordered at hord
    rwa [hdone t ht] at hord
  · exact Or.inl hgo

/-! ## A policy -/

variable [DecidableEq L]

/-- A reader has to wait for the writers that wait, too. -/
def writersFirst : LockPolicy L where
  grants ts k := ((ts[k]?).bind LockThread.wants).any fun w =>
    (ts.all fun u => u.held.all fun h => decide (h.1 = w.1 → w.2.compatible h.2 = true)) &&
      (w.2 = .exclusive || ts.all fun u => decide (u.wants ≠ some (w.1, .exclusive)))
  safe := by
    intro ts k t l mode hgrants hk hwants u hu mode' hin
    simp only [hk, Option.bind_some, hwants, Option.any_some, Bool.and_eq_true, List.all_eq_true,
      decide_eq_true_eq] at hgrants
    exact hgrants.1 u hu (l, mode') hin rfl
  live := by
    intro ts t l mode ht hwants hfree
    have hcompatible : ∀ (mode : LockMode), ∀ u ∈ ts, ∀ h ∈ u.held, h.1 = l → mode.compatible h.2 = true := by
      rintro mode u hu ⟨l', mode'⟩ hin rfl
      exact absurd hin (hfree u hu mode')
    by_cases hwriter : ∃ u ∈ ts, u.wants = some (l, .exclusive)
    · obtain ⟨u, hu, hwu⟩ := hwriter
      obtain ⟨k, hk⟩ := List.mem_iff_getElem?.mp hu
      refine ⟨k, u, .exclusive, hk, hwu, ?_⟩
      simp only [hk, Option.bind_some, hwu, Option.any_some, Bool.and_eq_true, List.all_eq_true,
        decide_eq_true_eq, Bool.or_eq_true]
      exact ⟨hcompatible .exclusive, Or.inl trivial⟩
    · obtain ⟨k, hk⟩ := List.mem_iff_getElem?.mp ht
      refine ⟨k, t, mode, hk, hwants, ?_⟩
      have hnone : ∀ u ∈ ts, u.wants ≠ some (l, .exclusive) := fun u hu heq => hwriter ⟨u, hu, heq⟩
      simp only [hk, Option.bind_some, hwants, Option.any_some, Bool.and_eq_true, List.all_eq_true,
        decide_eq_true_eq, Bool.or_eq_true]
      exact ⟨hcompatible mode, Or.inr hnone⟩

end LockPolicy

end TinyTcp.Lib
