/-
TinyTcp.Timers.Alarm — what a timer is for, as those who create it see it.

An `Alarm` is armed at some time for a period and goes off when the clock
reaches their sum. A single alarm goes off once, a recurring one is armed
again at that moment, and a cancelled one does not go off any more. The
record `fired` keeps, for each time it went off, the clock, the period and
how often the period had been changed by then.

`AlarmOk` is what every alarm satisfies that goes off only while it is
live and due (`AlarmOk.collect`): at most once if it is a single one, not
after it was cancelled, and not faster than its period. `earliest` is the
time a caller has to wake up at the latest, over several deadlines.
-/
import Mathlib.Data.List.Chain
import Mathlib.Order.Lattice.Nat
import Mathlib.Order.WithBot
import Mathlib.Order.MinMax

namespace TinyTcp.Timers

variable {κ ι : Type}

/-! ## Alarms -/

/-- One time an alarm went off. -/
structure Firing where
  clock : Nat
  period : Nat
  /-- how often the period had been changed by then -/
  changes : Nat
  deriving DecidableEq

structure Alarm (κ : Type) where
  cb : Option κ
  recurring : Bool
  armed : Nat
  period : Nat
  changes : Nat
  /-- how often it had gone off when it was cancelled -/
  cancelled : Option Nat
  fired : List Firing
  deriving DecidableEq

namespace Alarm

def create (now : Nat) (cb : Option κ) (recurring : Bool) (period : Nat) : Alarm κ where
  cb := cb
  recurring := recurring
  armed := now
  period := period
  changes := 0
  cancelled := none
  fired := []

variable (a : Alarm κ)

/-- It can still go off. -/
def live : Bool := a.cancelled.isNone && (a.recurring || a.fired.isEmpty)

def deadline : Nat := a.armed + a.period

def cancel : Alarm κ := { a with cancelled := some a.fired.length }

def rearm (now : Nat) : Alarm κ := { a with armed := now }

/-- A new period, counted from `start`. -/
def reset (start period : Nat) : Alarm κ :=
  { a with
    armed := start
    period := period
    changes := if period = a.period then a.changes else a.changes + 1 }

/-- It goes off; a recurring one is armed again. -/
def collect (now : Nat) : Alarm κ :=
  { a with
    fired := a.fired ++ [{ clock := now, period := a.period, changes := a.changes }]
    armed := if a.recurring then now else a.armed }

end Alarm

/-- With the period unchanged in between, a period apart. -/
def Apart (f g : Firing) : Prop := f.changes = g.changes → f.clock + f.period ≤ g.clock

instance (f g : Firing) : Decidable (Apart f g) := inferInstanceAs (Decidable (_ → _))

structure AlarmOk (now : Nat) (a : Alarm κ) : Prop where
  armed_le : a.armed ≤ now
  once : a.recurring = false → a.fired.length ≤ 1
  stopped : ∀ n, a.cancelled = some n → a.fired.length = n
  spaced : a.fired.IsChain Apart
  /-- a recurring alarm has been armed since it went off last -/
  last : a.recurring = true → ∀ f ∈ a.fired.getLast?, f.clock ≤ a.armed ∧ f.changes ≤ a.changes ∧
    (f.changes = a.changes → f.period = a.period)

section

variable {a : Alarm κ} {now : Nat}

theorem create_alarmOk (now : Nat) (cb : Option κ) (recurring : Bool) (period : Nat) :
    AlarmOk now (Alarm.create now cb recurring period) where
  armed_le := Nat.le_refl now
  once := fun _ => Nat.zero_le 1
  stopped := fun _ hn => by cases hn
  spaced := List.isChain_nil
  last := fun _ _ hf => by cases hf

theorem AlarmOk.mono (ok : AlarmOk now a) {now' : Nat} (hle : now ≤ now') : AlarmOk now' a :=
  { ok with armed_le := Nat.le_trans ok.armed_le hle }

theorem AlarmOk.cancel (ok : AlarmOk now a) : AlarmOk now a.cancel :=
  { ok with stopped := fun _ hn => Option.some.inj hn }

theorem AlarmOk.rearm (ok : AlarmOk now a) : AlarmOk now (a.rearm now) where
  armed_le := Nat.le_refl now
  once := ok.once
  stopped := ok.stopped
  spaced := ok.spaced
  last := by
    intro hr f hf
    obtain ⟨hat, hchanges⟩ := ok.last hr f hf
    exact ⟨Nat.le_trans hat ok.armed_le, hchanges⟩

/-- A reset may arm the alarm now, or keep the time it was armed. -/
theorem AlarmOk.reset (ok : AlarmOk now a) {start : Nat} (hlow : a.armed ≤ start)
    (hhigh : start ≤ now) (period : Nat) : AlarmOk now (a.reset start period) where
  armed_le := hhigh
  once := ok.once
  stopped := ok.stopped
  spaced := ok.spaced
  last := by
    intro hr f hf
    obtain ⟨hat, hchanges, hperiod⟩ := ok.last hr f hf
    have hat' : f.clock ≤ start := Nat.le_trans hat hlow
    by_cases hsame : period = a.period
    · have heq : (a.reset start period).changes = a.changes := if_pos hsame
      rw [heq]
      exact ⟨hat', hchanges, fun hc => (hperiod hc).trans hsame.symm⟩
    · have heq : (a.reset start period).changes = a.changes + 1 := if_neg hsame
      rw [heq]
      refine ⟨hat', Nat.le_succ_of_le hchanges, fun hc => ?_⟩
      omega

/-- **Going off** when live and due keeps everything that is promised. -/
theorem AlarmOk.collect (ok : AlarmOk now a) (hlive : a.live = true) (hdue : a.deadline ≤ now) :
    AlarmOk now (a.collect now) := by
  rw [Alarm.live, Bool.and_eq_true, Option.isNone_iff_eq_none, Bool.or_eq_true,
    List.isEmpty_iff] at hlive
  obtain ⟨hnot, hmore⟩ := hlive
  refine { armed_le := ?_, once := ?_, stopped := ?_, spaced := ?_, last := ?_ }
  · show (if a.recurring then now else a.armed) ≤ now
    split
    · exact Nat.le_refl now
    · exact ok.armed_le
  · intro hr
    have hr' : a.recurring = false := hr
    rw [hr'] at hmore
    have hfirst : a.fired = [] := hmore.resolve_left Bool.false_ne_true
    show (a.fired ++ [_]).length ≤ 1
    rw [hfirst]
    exact Nat.le_refl 1
  · intro n hn
    rw [show (a.collect now).cancelled = a.cancelled from rfl, hnot] at hn
    cases hn
  · refine List.isChain_append.mpr ⟨ok.spaced, List.isChain_singleton _, ?_⟩
    intro f hf g hg hsame
    obtain rfl := Option.some.inj hg
    rcases hmore with hr | hnone
    · -- since it went off last it has been armed, for the period it has now
      obtain ⟨hat, -, hperiod⟩ := ok.last hr f hf
      rw [hperiod hsame]
      exact Nat.le_trans (Nat.add_le_add_right hat a.period) hdue
    · rw [hnone] at hf
      cases hf
  · intro hr f hf
    have hr' : a.recurring = true := hr
    have hlast : (a.fired ++ [(⟨now, a.period, a.changes⟩ : Firing)]).getLast? = some f := hf
    rw [List.getLast?_append, List.getLast?_singleton] at hlast
    obtain rfl := Option.some.inj hlast
    have harmed : (a.collect now).armed = now := if_pos hr'
    rw [harmed]
    exact ⟨Nat.le_refl now, Nat.le_refl _, fun _ => rfl⟩

/-- An alarm that goes off can go off again if it is recurring. -/
theorem live_collect (hlive : a.live = true) : (a.collect now).live = a.recurring := by
  rw [Alarm.live, Bool.and_eq_true, Option.isNone_iff_eq_none] at hlive
  simp [Alarm.live, Alarm.collect, hlive.1]

/-- It is then due one period later. -/
theorem deadline_collect (hr : a.recurring = true) :
    (a.collect now).deadline = now + a.period := by
  rw [Alarm.deadline, show (a.collect now).armed = now from if_pos hr]
  rfl

end

/-! ## The earliest of several times -/

/-- The least value of `f` on the list, infinity if there is none. -/
def earliest (f : ι → WithTop ℕ) (l : List ι) : WithTop ℕ := l.foldr (fun i e => min (f i) e) ⊤

theorem le_earliest_iff (f : ι → WithTop ℕ) (l : List ι) (e : WithTop ℕ) :
    e ≤ earliest f l ↔ ∀ i ∈ l, e ≤ f i := by
  induction l with
  | nil => simp [earliest]
  | cons i l ih =>
    rw [List.forall_mem_cons, ← ih]
    exact le_min_iff

theorem earliest_le {f : ι → WithTop ℕ} {l : List ι} {i : ι} (hi : i ∈ l) : earliest f l ≤ f i :=
  (le_earliest_iff f l _).mp (le_refl _) i hi

/-- When every time has an earlier one in another list, that list's
earliest time is earlier. -/
theorem earliest_mono {f g : ι → WithTop ℕ} {l l' : List ι}
    (h : ∀ i ∈ l', ∃ k ∈ l, f k ≤ g i) : earliest f l ≤ earliest g l' := by
  rw [le_earliest_iff]
  intro i hi
  obtain ⟨k, hk, hle⟩ := h i hi
  exact (earliest_le hk).trans hle

end TinyTcp.Timers
