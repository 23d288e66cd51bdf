/-
TinyTcp.Timers.Ordered — what one operation of the timer manager can do,
and the set invariant over whole runs.

`Effect` lists, once for all the results about timers, every way through
every operation with the state it leaves; `apply_effect` shows that the
list is complete. An invariant is then a case split over `Effect`.

`timers_ordered` is the first such result. In every state of a run whose
timers are created with a callback, `m_timers` is strictly ordered by
deadline and address, holds exactly the timers that have a callback, each
once, and no lookup misses: no operation is stuck at `erase(end())`. The
clock values of the run are arbitrary.
-/
import TinyTcp.Timers.SetInvariant
import TinyTcp.Lib.Run

namespace TinyTcp.Timers

open TinyTcp.Lib

variable {ι A κ : Type} [LinearOrder A]

/-! ## The order of the set -/

/-- Earlier, or at the same time and at a lower address. -/
def Before (m : TimerManager ι A κ) (h k : ι) : Prop :=
  ∃ t u, m.timer h = some t ∧ m.timer k = some u ∧
    (t.next < u.next ∨ t.next = u.next ∧ t.addr < u.addr)

theorem before_of_key_lt {m : TimerManager ι A κ} (ok : SetOk m) {h k : ι} (hh : h ∈ m.timers) (hk : k ∈ m.timers)
    (hlt : m.key h < m.key k) : Before m h k := by
  obtain ⟨t, ht⟩ := ok.distinct.exist h hh
  obtain ⟨u, hu⟩ := ok.distinct.exist k hk
  refine ⟨t, u, ht, hu, ?_⟩
  rw [TimerManager.key, TimerManager.key, ht, hu, stamp, stamp, WithBot.coe_lt_coe,
    Prod.Lex.toLex_lt_toLex] at hlt
  rw [UInt64.lt_iff_toNat_lt, ← UInt64.toNat_inj]
  exact hlt

theorem create_setOk (start : UInt64) : SetOk (TimerManager.create ι A κ start) where
  sorted := List.Pairwise.nil
  distinct :=
    { nodup := List.nodup_nil
      exist := fun _ hh => absurd hh List.not_mem_nil
      addrs := fun _ hh => absurd hh List.not_mem_nil }
  live := by intro h t ht; cases ht

/-- Every timer of the set has a callback. -/
def Full (m : TimerManager ι A κ) : Prop :=
  ∀ h ∈ m.timers, ∀ t, m.timer h = some t → t.cb.isSome = true

/-- The invariant of the runs below; every timer of the set has a callback, too. -/
structure FullOk (m : TimerManager ι A κ) : Prop extends SetOk m where
  full : Full m

theorem create_fullOk (start : UInt64) : FullOk (TimerManager.create ι A κ start) where
  toSetOk := create_setOk start
  full := fun _ hh => by cases hh

/-! ## The effect of an operation -/

variable [DecidableEq ι]

/-- What is left of the set when the expired timers have been taken. -/
def TimerManager.unexpired (m : TimerManager ι A κ) (now : UInt64) : TimerManager ι A κ :=
  { m with
    timers := m.timers.filter (fun h => !m.due now h)
    previousTime := if m.timers = [] then m.previousTime else now }

/-- The ways through the operations. -/
inductive Effect (m : TimerManager ι A κ) (now : UInt64) :
    Op ι A κ → Outcome ι κ → TimerManager ι A κ → Prop where
  | added {h : ι} {addr : A} {ms : UInt64} {cb : Option κ} {recurring notified : Bool}
      {m' : TimerManager ι A κ} (new : m.timer h = none)
      (placed : Placed m h (.create now addr ms cb recurring) m') (front : Front m h m' notified) :
      Effect m now (.addTimer h addr ms cb recurring) (.returned true notified) m'
  | cancelled {h : ι} {t : Timer A κ} {m' : TimerManager ι A κ} (is : m.timer h = some t)
      (cb : t.cb.isSome = true) (timer : m'.timer = (m.setTimer h { t with cb := none }).timer)
      (perm : m.timers.Perm (h :: m'.timers)) (sorted : OrderedSet.Sorted m'.key m'.timers)
      (tickled : m'.tickled = m.tickled) (previousTime : m'.previousTime = m.previousTime) :
      Effect m now (.cancel h) (.returned true false) m'
  | refreshed {h : ι} {t : Timer A κ} {m' : TimerManager ι A κ} (is : m.timer h = some t)
      (cb : t.cb.isSome = true) (placed : Placed m h { t with next := now + t.ms } m')
      (tickled : m'.tickled = m.tickled) :
      Effect m now (.refresh h) (.returned true false) m'
  | reset {h : ι} {t : Timer A κ} {ms : UInt64} {fromNow notified : Bool}
      {m' : TimerManager ι A κ} (is : m.timer h = some t) (cb : t.cb.isSome = true)
      (other : ¬(ms = t.ms ∧ fromNow = false))
      (placed : Placed m h { t with ms := ms, next := t.start now fromNow + ms } m')
      (front : Front m h m' notified) :
      Effect m now (.reset h ms fromNow) (.returned true notified) m'
  | resetSame {h : ι} {t : Timer A κ} (is : m.timer h = some t) :
      Effect m now (.reset h t.ms false) (.returned true false) m
  /-- The timer has no callback any more. -/
  | rejected {h : ι} {t : Timer A κ} {op : Op ι A κ} (is : m.timer h = some t) (cb : t.cb = none)
      (call : op = .cancel h ∨ op = .refresh h ∨ ∃ ms fromNow, op = .reset h ms fromNow) :
      Effect m now op (.returned false false) m
  | polled (ms : UInt64) : Effect m now .getNextTime (.wait ms) { m with tickled := false }
  | expired {probe : A} {m' : TimerManager ι A κ}
      (fired : Fired now (m.unexpired now) (m.timers.filter (m.due now)) m') :
      Effect m now (.listExpiredCb probe)
        (.collected ((m.timers.filter (m.due now)).map fun h => (h, (m.timer h).bind Timer.cb))) m'

variable {m m' : TimerManager ι A κ} {now : UInt64} {op : Op ι A κ} {o : Outcome ι κ}

/-- **Every operation has one of the effects.** -/
theorem apply_effect (ok : SetOk m) (happly : m.apply now op = some (o, m')) :
    Effect m now op o m' := by
  cases op with
  | addTimer h addr ms cb recurring =>
    rw [TimerManager.apply] at happly
    split at happly
    · rename_i hnew
      obtain ⟨hnone, haddr⟩ := hnew
      rw [Option.isNone_iff_eq_none] at hnone
      obtain ⟨hplaced, hfront⟩ := addTimer_spec ok now hnone haddr ms cb recurring
      cases happly
      exact .added hnone hplaced hfront
    · cases happly
  | cancel h =>
    rw [TimerManager.apply] at happly
    cases ht : m.timer h with
    | none =>
      rw [show m.cancel h = none by rw [TimerManager.cancel, ht]] at happly
      cases happly
    | some t =>
      cases hcb : t.cb with
      | none =>
        rw [cancel_empty ht hcb] at happly
        cases happly
        exact .rejected ht hcb (.inl rfl)
      | some cb =>
        have hsome : t.cb.isSome = true := by rw [hcb]; rfl
        obtain ⟨m₁, hrun, htimer, hperm, hsorted, htickled, hprev⟩ := cancel_spec ok ht hsome
        rw [hrun] at happly
        cases happly
        exact .cancelled ht hsome htimer hperm hsorted htickled hprev
  | refresh h =>
    rw [TimerManager.apply] at happly
    cases ht : m.timer h with
    | none =>
      rw [show m.refresh now h = none by rw [TimerManager.refresh, ht]] at happly
      cases happly
    | some t =>
      cases hcb : t.cb with
      | none =>
        rw [refresh_empty now ht hcb] at happly
        cases happly
        exact .rejected ht hcb (.inr (.inl rfl))
      | some cb =>
        have hsome : t.cb.isSome = true := by rw [hcb]; rfl
        obtain ⟨m₁, hrun, hplaced, htickled⟩ := refresh_spec ok now ht hsome
        rw [hrun] at happly
        cases happly
        exact .refreshed ht hsome hplaced htickled
  | reset h ms fromNow =>
    rw [TimerManager.apply] at happly
    cases ht : m.timer h with
    | none =>
      rw [show m.reset now h ms fromNow = none by rw [TimerManager.reset, ht]] at happly
      cases happly
    | some t =>
      by_cases hsame : ms = t.ms ∧ fromNow = false
      · obtain ⟨rfl, rfl⟩ := hsame
        rw [reset_same now ht] at happly
        cases happly
        exact .resetSame ht
      · cases hcb : t.cb with
        | none =>
          rw [reset_empty now ht hcb hsame] at happly
          cases happly
          exact .rejected ht hcb (.inr (.inr ⟨ms, fromNow, rfl⟩))
        | some cb =>
          have hsome : t.cb.isSome = true := by rw [hcb]; rfl
          obtain ⟨m₁, notified, hrun, hplaced, hfront⟩ := reset_spec ok now ht hsome hsame
          rw [hrun] at happly
          cases happly
          exact .reset ht hsome hsame hplaced hfront
  | getNextTime =>
    have heq : some (.wait (m.getNextTime now).1, (m.getNextTime now).2) = some (o, m') := happly
    rw [Option.some.injEq, Prod.mk.injEq, getNextTime_spec] at heq
    obtain ⟨rfl, rfl⟩ := heq
    exact .polled _
  | listExpiredCb probe =>
    obtain ⟨hcbs, -, hfired⟩ := listExpiredCb_spec ok.sorted ok.distinct now probe
    have heq : some (.collected (m.listExpiredCb now probe).1, (m.listExpiredCb now probe).2) =
        some (o, m') := happly
    rw [Option.some.injEq, Prod.mk.injEq, hcbs] at heq
    obtain ⟨rfl, rfl⟩ := heq
    exact .expired hfired

/-! ## The invariant -/

theorem SetOk.effect (ok : SetOk m) (e : Effect m now op o m') : SetOk m' := by
  cases e with
  | added _ placed _ => exact ok.placed placed
  | cancelled is _ timer perm sorted _ _ => exact ok.remove is timer rfl rfl perm sorted
  | refreshed _ _ placed _ => exact ok.placed placed
  | reset _ _ _ placed _ => exact ok.placed placed
  | resetSame _ => exact ok
  | rejected _ _ _ => exact ok
  | polled _ => exact ⟨ok.sorted, ⟨ok.distinct.nodup, ok.distinct.exist, ok.distinct.addrs⟩, ok.live⟩
  | expired fired => exact ok.expired fired

/-- The operation does not create a timer without a callback. -/
def Op.hasCallback : Op ι A κ → Bool
  | .addTimer _ _ _ cb _ => cb.isSome
  | _ => true

theorem Full.placed (full : Full m) {h : ι} {t' : Timer A κ} (p : Placed m h t' m')
    (hcb : t'.cb.isSome = true) : Full m' := by
  intro k hk u hu
  rw [p.perm.mem_iff, List.mem_cons] at hk
  by_cases hkh : k = h
  · subst hkh
    rw [p.timer, m.setTimer_self, Option.some.injEq] at hu
    rw [← hu]
    exact hcb
  · rw [p.timer, m.setTimer_other hkh] at hu
    exact full k (List.mem_of_mem_erase (hk.resolve_left hkh)) u hu

theorem Full.effect (ok : SetOk m) (full : Full m) (hop : op.hasCallback = true)
    (e : Effect m now op o m') : Full m' := by
  cases e with
  | added _ placed _ => exact full.placed placed hop
  | @cancelled h t _ _ _ timer perm _ _ _ =>
    intro k hk u hu
    have hkh : k ≠ h := by
      rintro rfl
      exact (List.nodup_cons.mp (perm.nodup_iff.mp ok.distinct.nodup)).1 hk
    rw [timer, m.setTimer_other hkh] at hu
    exact full k (perm.mem_iff.mpr (List.mem_cons_of_mem _ hk)) u hu
  | refreshed _ cb placed _ => exact full.placed placed cb
  | reset _ cb _ placed _ => exact full.placed placed cb
  | resetSame _ => exact full
  | rejected _ _ _ => exact full
  | polled _ => exact full
  | expired fired =>
    intro h hh t ht
    rw [fired.timer h] at ht
    split at ht
    · rename_i hin
      -- a timer that is back in the set is armed again, with its callback
      obtain ⟨t₀, ht₀, rfl⟩ := Option.map_eq_some_iff.mp ht
      have hr : t₀.recurring = true := (fired.mem_of_due ht₀ hin).mp hh
      rw [Timer.fired, if_pos hr]
      exact full h (List.mem_of_mem_filter hin) t₀ ht₀
    · rename_i hout
      exact full h ((fired.mem_of_not_due hout).mp hh) t ht

/-! ## Runs -/

/-- The call goes to a timer that exists; a new timer is one that does not,
at an address where no timer of the set lives. -/
def Op.Valid (m : TimerManager ι A κ) : Op ι A κ → Prop
  | .addTimer h addr _ _ _ =>
      m.timer h = none ∧ ∀ k ∈ m.timers, (m.timer k).map Timer.addr ≠ some addr
  | .cancel h | .refresh h | .reset h _ _ => ∃ t, m.timer h = some t
  | .getNextTime | .listExpiredCb _ => True

/-- No valid operation gets stuck. -/
theorem apply_total (ok : SetOk m) (hvalid : op.Valid m) : ∃ r, m.apply now op = some r := by
  cases op with
  | addTimer h addr ms cb recurring =>
    obtain ⟨hnew, haddr⟩ := hvalid
    rw [TimerManager.apply, if_pos ⟨by rw [hnew]; rfl, haddr⟩]
    exact ⟨_, rfl⟩
  | cancel h =>
    obtain ⟨t, ht⟩ := hvalid
    rw [TimerManager.apply]
    cases hcb : t.cb with
    | none => exact ⟨_, by rw [cancel_empty ht hcb]; rfl⟩
    | some cb =>
      obtain ⟨m₁, hrun, -⟩ := cancel_spec ok ht (by rw [hcb]; rfl)
      exact ⟨_, by rw [hrun]; rfl⟩
  | refresh h =>
    obtain ⟨t, ht⟩ := hvalid
    rw [TimerManager.apply]
    cases hcb : t.cb with
    | none => exact ⟨_, by rw [refresh_empty now ht hcb]; rfl⟩
    | some cb =>
      obtain ⟨m₁, hrun, -⟩ := refresh_spec ok now ht (by rw [hcb]; rfl)
      exact ⟨_, by rw [hrun]; rfl⟩
  | reset h ms fromNow =>
    obtain ⟨t, ht⟩ := hvalid
    rw [TimerManager.apply]
    by_cases hsame : ms = t.ms ∧ fromNow = false
    · obtain ⟨rfl, rfl⟩ := hsame
      exact ⟨_, by rw [reset_same now ht]; rfl⟩
    · cases hcb : t.cb with
      | none => exact ⟨_, by rw [reset_empty now ht hcb hsame]; rfl⟩
      | some cb =>
        obtain ⟨m₁, notified, hrun, -⟩ := reset_spec ok now ht (by rw [hcb]; rfl) hsame
        exact ⟨_, by rw [hrun]; rfl⟩
  | getNextTime => exact ⟨_, rfl⟩
  | listExpiredCb probe => exact ⟨_, rfl⟩

/-- One operation, at the clock value it reads. -/
def TimerManager.step (m : TimerManager ι A κ) (move : UInt64 × Op ι A κ) :
    Option (TimerManager ι A κ) :=
  (m.apply move.1 move.2).map Prod.snd

theorem step_fullOk {move : UInt64 × Op ι A κ} (inv : FullOk m)
    (hcb : move.2.hasCallback = true) (hstep : m.step move = some m') : FullOk m' := by
  obtain ⟨⟨o, m₁⟩, happly, rfl⟩ := Option.map_eq_some_iff.mp hstep
  have he := apply_effect inv.toSetOk happly
  exact { toSetOk := inv.toSetOk.effect he, full := inv.full.effect inv.toSetOk hcb he }

theorem run_fullOk {start : UInt64} {moves : List (UInt64 × Op ι A κ)}
    (hcb : ∀ mv ∈ moves, mv.2.hasCallback = true)
    (hrun : run TimerManager.step (.create ι A κ start) moves = some m) : FullOk m :=
  run_induction (fun _ _ _ inv hmv hstep => step_fullOk inv hmv hstep) moves _ m
    (create_fullOk start) (along_of_forall hcb _) hrun

structure TimersOrdered (m : TimerManager ι A κ) : Prop where
  strictly : m.timers.Pairwise (Before m)
  nodup : m.timers.Nodup
  mem_iff : ∀ h, h ∈ m.timers ↔ ∃ t, m.timer h = some t ∧ t.cb.isSome = true
  /-- a lookup of a timer that has a callback finds this timer -/
  found : ∀ h t, m.timer h = some t → t.cb.isSome = true →
    ∃ it, OrderedSet.find m.less m.timers h = some it ∧ m.timers[it]? = some h
  /-- nothing gets stuck, at `erase(end())` in particular -/
  total : ∀ now op, op.Valid m → ∃ r, m.apply now op = some r

theorem timersOrdered_of_ok (ok : SetOk m) (full : Full m) : TimersOrdered m where
  strictly := ok.sorted.imp_of_mem fun hh hk hlt => before_of_key_lt ok hh hk hlt
  nodup := ok.distinct.nodup
  mem_iff := by
    intro h
    constructor
    · intro hh
      obtain ⟨t, ht⟩ := ok.distinct.exist h hh
      exact ⟨t, ht, full h hh t ht⟩
    · rintro ⟨t, ht, hcb⟩
      exact ok.live h t ht hcb
  found := by
    intro h t ht hcb
    obtain ⟨it, hfind, hget, -⟩ := ok.find (ok.live h t ht hcb)
    exact ⟨it, hfind, hget⟩
  total := fun _ _ hvalid => apply_total ok hvalid

/-- **The set invariant**, for every run of operations at any clock values. -/
theorem timers_ordered (start : UInt64) (moves : List (UInt64 × Op ι A κ))
    (m : TimerManager ι A κ) (hcb : ∀ mv ∈ moves, mv.2.hasCallback = true)
    (hrun : run TimerManager.step (.create ι A κ start) moves = some m) : TimersOrdered m := by
  have hinv := run_fullOk hcb hrun
  exact timersOrdered_of_ok hinv.toSetOk hinv.full

/-- Two timers, one with a deadline that wraps, and a clock that jumps back
by more than an hour. -/
theorem timers_ordered_clock_jumps :
    ∃ m, run TimerManager.step (.create (Fin 3) Nat Nat 18446744073709551000)
        [(18446744073709551000, .addTimer 0 8 1000 (some 10) true),
         (18446744073709551001, .addTimer 1 4 5 (some 20) false),
         (18446744073709551002, .refresh 1), (7, .reset 0 2000 true),
         (9, .listExpiredCb 16), (10, .cancel 0)] = some m ∧ TimersOrdered m := by
  obtain ⟨m, hrun⟩ := Option.isSome_iff_exists.mp (show (run TimerManager.step
        (.create (Fin 3) Nat Nat 18446744073709551000)
        [(18446744073709551000, .addTimer 0 8 1000 (some 10) true),
         (18446744073709551001, .addTimer 1 4 5 (some 20) false),
         (18446744073709551002, .refresh 1), (7, .reset 0 2000 true),
         (9, .listExpiredCb 16), (10, .cancel 0)]).isSome = true by decide +kernel)
  exact ⟨m, hrun, timers_ordered _ _ m (by decide) hrun⟩

end TinyTcp.Timers
