/-
TinyTcp.Timers.Record — the timer manager under a clock, with a record of
what happened.

`Sys` is a manager, the clock and a `History`: for every timer that was
created the `Alarm` its user sees, and for every `get_next_time` the
earliest deadline at that moment and how often
`on_timer_inserted_at_front` had been called by then. The manager never
reads the record.

The runs of interest are `Timely`: the clock does not go back, and no
deadline reaches `2 ^ 64`. Along such runs every timer object agrees with
its alarm (`Tracks`): it is in the set exactly while the alarm is live,
and its `m_next` is the alarm's deadline. `step_agrees` preserves this,
one case for each effect of an operation.
-/
import TinyTcp.Timers.Ordered
import TinyTcp.Timers.Alarm
import Mathlib.Data.Fintype.Basic

namespace TinyTcp.Timers

open TinyTcp.Lib

variable {ι A κ : Type}

/-! ## The record -/

structure History (ι κ : Type) where
  alarm : ι → Option (Alarm κ)
  /-- at each `get_next_time`: the earliest deadline, and the notifications so far -/
  polls : List (WithTop ℕ × Nat)
  notices : Nat

/-- When the thread that waits has to wake up at the latest. -/
def TimerManager.wakeUp (m : TimerManager ι A κ) : WithTop ℕ :=
  earliest (fun h => ((m.timer h).map fun t => t.next.toNat)) m.timers

namespace History

def empty (ι κ : Type) : History ι κ where
  alarm := fun _ => none
  polls := []
  notices := 0

variable (h : History ι κ)

def notice (notified : Bool) : History ι κ := { h with notices := h.notices + notified.toNat }

variable [DecidableEq ι]

def setAlarm (i : ι) (f : Alarm κ → Alarm κ) : History ι κ :=
  { h with alarm := Function.update h.alarm i ((h.alarm i).map f) }

def collect (now : Nat) (timers : List ι) : History ι κ :=
  timers.foldl (fun h i => h.setAlarm i fun a => a.collect now) h

/-- The record after an operation at `now`; `wake` is the earliest deadline
before it. -/
def record (now : Nat) (wake : WithTop ℕ) : Op ι A κ → Outcome ι κ → History ι κ
  | .addTimer i _ ms cb recurring, .returned _ notified =>
      { h with
        alarm := Function.update h.alarm i (some (.create now cb recurring ms.toNat)) }.notice
          notified
  | .cancel i, .returned true _ => h.setAlarm i Alarm.cancel
  | .refresh i, .returned true _ => h.setAlarm i fun a => a.rearm now
  | .reset i ms fromNow, .returned true notified =>
      (h.setAlarm i fun a => a.reset (if fromNow then now else a.armed) ms.toNat).notice notified
  | .getNextTime, _ => { h with polls := h.polls ++ [(wake, h.notices)] }
  | .listExpiredCb _, .collected cbs => h.collect now (cbs.map Prod.fst)
  | _, _ => h

end History

/-! ## Runs -/

structure Sys (ι A κ : Type) where
  mgr : TimerManager ι A κ
  clock : UInt64
  hist : History ι κ

namespace Sys

def init (ι A κ : Type) (start : UInt64) : Sys ι A κ where
  mgr := .create ι A κ start
  clock := start
  hist := .empty ι κ

variable [DecidableEq ι] [LinearOrder A]

/-- The operation `move.2`, at the clock value `move.1`. -/
def step (s : Sys ι A κ) (move : UInt64 × Op ι A κ) : Option (Sys ι A κ) :=
  match s.mgr.apply move.1 move.2 with
  | some (o, mgr) =>
      some { mgr := mgr, clock := move.1
             hist := s.hist.record move.1.toNat s.mgr.wakeUp move.2 o }
  | none => none

/-- No timer that can still go off has a deadline from `2 ^ 64` on. -/
def Fits (s : Sys ι A κ) : Prop :=
  ∀ i, (s.hist.alarm i).all (fun a => !a.live || decide (a.deadline < 2 ^ 64)) = true

/-- The clock has not gone back, and the deadlines fit after the step. -/
def Timely (s : Sys ι A κ) (move : UInt64 × Op ι A κ) : Prop :=
  s.clock ≤ move.1 ∧
    match s.step move with
    | some s' => s'.Fits
    | none => True

instance [Fintype ι] (s : Sys ι A κ) : Decidable s.Fits := inferInstanceAs (Decidable (∀ _, _))

instance [Fintype ι] (s : Sys ι A κ) (move : UInt64 × Op ι A κ) : Decidable (s.Timely move) :=
  have : Decidable (match s.step move with
      | some s' => s'.Fits
      | none => True) :=
    match s.step move with
    | some s' => inferInstanceAs (Decidable s'.Fits)
    | none => isTrue trivial
  inferInstanceAs (Decidable (_ ∧ _))

end Sys

/-! ## Timers and alarms -/

/-- The object `t` behind the handle `i` is the alarm `a`. -/
structure Tracks (m : TimerManager ι A κ) (i : ι) (t : Timer A κ) (a : Alarm κ) : Prop where
  cb : i ∈ m.timers → t.cb = a.cb
  recurring : t.recurring = a.recurring
  period : t.ms.toNat = a.period
  mem : i ∈ m.timers ↔ a.live = true
  next : i ∈ m.timers → t.next.toNat = a.deadline

theorem Sys.Fits.deadline {s : Sys ι A κ} (fits : s.Fits) {i : ι} {a : Alarm κ} (ha : s.hist.alarm i = some a)
    (hlive : a.live = true) : a.deadline < 2 ^ 64 := by
  have := fits i
  rw [ha, Option.all_some, hlive] at this
  simpa using this

theorem toNat_add_of_fits {now ms : UInt64} (h : now.toNat + ms.toNat < 2 ^ 64) :
    (now + ms).toNat = now.toNat + ms.toNat := by
  rw [UInt64.toNat_add, Nat.mod_eq_of_lt h]

theorem Tracks.congr {m m' : TimerManager ι A κ} {i : ι} {t : Timer A κ} {a : Alarm κ}
    (h : Tracks m i t a) (hmem : i ∈ m'.timers ↔ i ∈ m.timers) : Tracks m' i t a where
  cb := fun hi => h.cb (hmem.mp hi)
  recurring := h.recurring
  period := h.period
  mem := hmem.trans h.mem
  next := fun hi => h.next (hmem.mp hi)

/-- A timer that fires when its alarm goes off, and that is put back if it is recurring. -/
theorem Tracks.fired {m m' : TimerManager ι A κ} {i : ι} {t : Timer A κ} {a : Alarm κ}
    {now : UInt64} (h : Tracks m i t a) (hlive : a.live = true)
    (hback : i ∈ m'.timers ↔ t.recurring = true)
    (hfits : (a.collect now.toNat).live = true → (a.collect now.toNat).deadline < 2 ^ 64) :
    Tracks m' i (t.fired now) (a.collect now.toNat) where
  cb := by
    intro hi
    rw [Timer.fired, if_pos (hback.mp hi)]
    exact h.cb (h.mem.mpr hlive)
  recurring := by
    rw [Timer.fired]
    split
    · exact h.recurring
    · exact h.recurring
  period := by
    rw [Timer.fired]
    split
    · exact h.period
    · exact h.period
  mem := by rw [hback, live_collect hlive, h.recurring]
  next := by
    intro hi
    have hr : t.recurring = true := hback.mp hi
    have hra : a.recurring = true := h.recurring ▸ hr
    have hlt := hfits ((live_collect hlive).trans hra)
    rw [deadline_collect hra, ← h.period] at hlt ⊢
    rw [Timer.fired, if_pos hr]
    exact toNat_add_of_fits hlt

/-- Every timer object agrees with its alarm. -/
structure Agrees [DecidableEq ι] [LinearOrder A] (s : Sys ι A κ) : Prop where
  ok : SetOk s.mgr
  previous : s.mgr.previousTime ≤ s.clock
  known : ∀ i t, s.mgr.timer i = some t →
    ∃ a, s.hist.alarm i = some a ∧ Tracks s.mgr i t a ∧ AlarmOk s.clock.toNat a
  unknown : ∀ i, s.mgr.timer i = none → s.hist.alarm i = none

section

variable [DecidableEq ι] [LinearOrder A]

theorem init_agrees (start : UInt64) : Agrees (Sys.init ι A κ start) where
  ok := create_setOk start
  previous := UInt64.le_refl start
  known := fun _ _ ht => by cases ht
  unknown := fun _ _ => rfl

variable {s : Sys ι A κ}

/-- What is behind an alarm. -/
theorem Agrees.timer (inv : Agrees s) {i : ι} {a : Alarm κ} (ha : s.hist.alarm i = some a) :
    ∃ t, s.mgr.timer i = some t ∧ Tracks s.mgr i t a ∧ AlarmOk s.clock.toNat a := by
  cases ht : s.mgr.timer i with
  | none =>
    rw [inv.unknown i ht] at ha
    cases ha
  | some t =>
    obtain ⟨a', ha', htracks, hok⟩ := inv.known i t ht
    rw [ha] at ha'
    obtain rfl := Option.some.inj ha'
    exact ⟨t, rfl, htracks, hok⟩

/-- The clock has not rolled over. -/
theorem Agrees.no_rollOver (inv : Agrees s) {now : UInt64} (hnow : s.clock ≤ now) :
    (s.mgr.detectClockRollOver now).1 = false := by
  have hprev := inv.previous
  have hnot : decide (now < s.mgr.previousTime) = false := by
    rw [decide_eq_false_iff_not, UInt64.lt_iff_toNat_lt]
    rw [UInt64.le_iff_toNat_le] at hprev hnow
    omega
  rw [TimerManager.detectClockRollOver, hnot, Bool.false_and]

/-- A timer of the set is due when its alarm is. -/
theorem Agrees.due_iff (inv : Agrees s) {now : UInt64} (hnow : s.clock ≤ now) {i : ι}
    {a : Alarm κ} (ha : s.hist.alarm i = some a) :
    i ∈ s.mgr.timers.filter (s.mgr.due now) ↔ a.live = true ∧ a.deadline ≤ now.toNat := by
  obtain ⟨t, ht, htracks, -⟩ := inv.timer ha
  rw [List.mem_filter, Timers.due_iff (inv.no_rollOver hnow) ht, ← htracks.mem]
  refine and_congr_right fun hi => ?_
  rw [UInt64.le_iff_toNat_le, htracks.next hi]

/-- One timer and its alarm have changed. -/
theorem Agrees.one (inv : Agrees s) {now : UInt64} (hnow : s.clock ≤ now) {i : ι}
    {m' : TimerManager ι A κ} {h' : History ι κ} (ok : SetOk m')
    (hprev : m'.previousTime = s.mgr.previousTime) {t' : Timer A κ} {a' : Alarm κ}
    (htimer : m'.timer = (s.mgr.setTimer i t').timer)
    (halarm : h'.alarm = Function.update s.hist.alarm i (some a'))
    (hmem : ∀ k, k ≠ i → (k ∈ m'.timers ↔ k ∈ s.mgr.timers)) (htracks : Tracks m' i t' a')
    (halarmOk : AlarmOk now.toNat a') : Agrees ⟨m', now, h'⟩ where
  ok := ok
  previous := by
    show m'.previousTime ≤ now
    rw [hprev]
    exact UInt64.le_trans inv.previous hnow
  known := by
    intro k t ht
    show ∃ a, h'.alarm k = some a ∧ Tracks m' k t a ∧ AlarmOk now.toNat a
    have ht' : (s.mgr.setTimer i t').timer k = some t := by
      rw [← htimer]
      exact ht
    rw [halarm]
    by_cases hk : k = i
    · subst hk
      rw [s.mgr.setTimer_self, Option.some.injEq] at ht'
      subst ht'
      exact ⟨a', Function.update_self k _ _, htracks, halarmOk⟩
    · rw [s.mgr.setTimer_other hk] at ht'
      obtain ⟨a, ha, htr, hok⟩ := inv.known k t ht'
      refine ⟨a, ?_, htr.congr (hmem k hk), hok.mono (UInt64.le_iff_toNat_le.mp hnow)⟩
      rw [Function.update_of_ne hk]
      exact ha
  unknown := by
    intro k hk
    have hk' : (s.mgr.setTimer i t').timer k = none := by
      rw [← htimer]
      exact hk
    by_cases hki : k = i
    · subst hki
      rw [s.mgr.setTimer_self] at hk'
      cases hk'
    · rw [s.mgr.setTimer_other hki] at hk'
      show h'.alarm k = none
      rw [halarm, Function.update_of_ne hki]
      exact inv.unknown k hk'

/-- Nothing has changed but the clock. -/
theorem Agrees.same (inv : Agrees s) {now : UInt64} (hnow : s.clock ≤ now)
    {m' : TimerManager ι A κ} {h' : History ι κ} (ok : SetOk m')
    (hprev : m'.previousTime = s.mgr.previousTime) (htimer : m'.timer = s.mgr.timer)
    (htimers : m'.timers = s.mgr.timers) (halarm : h'.alarm = s.hist.alarm) :
    Agrees ⟨m', now, h'⟩ where
  ok := ok
  previous := by
    show m'.previousTime ≤ now
    rw [hprev]
    exact UInt64.le_trans inv.previous hnow
  known := by
    intro k t ht
    obtain ⟨a, ha, htracks, hok⟩ := inv.known k t (htimer ▸ ht)
    refine ⟨a, ?_, htracks.congr ?_, hok.mono (UInt64.le_iff_toNat_le.mp hnow)⟩
    · show h'.alarm k = some a
      rw [halarm]
      exact ha
    · show k ∈ m'.timers ↔ k ∈ s.mgr.timers
      rw [htimers]
  unknown := by
    intro k hk
    show h'.alarm k = none
    rw [halarm]
    exact inv.unknown k (htimer ▸ hk)

/-! ## One step -/

/-- The alarms that are collected go off, each once. -/
theorem collect_alarm (h : History ι κ) (now : Nat) {timers : List ι} (hn : timers.Nodup) (i : ι) :
    (h.collect now timers).alarm i
      = if i ∈ timers then (h.alarm i).map (fun a => a.collect now) else h.alarm i := by
  induction timers generalizing h with
  | nil => rfl
  | cons k timers ih =>
    obtain ⟨hk, hn'⟩ := List.nodup_cons.mp hn
    rw [History.collect, List.foldl_cons]
    refine (ih _ hn').trans ?_
    by_cases hik : i = k
    · subst hik
      rw [if_neg hk, if_pos List.mem_cons_self]
      exact Function.update_self i _ _
    · have hother : (h.setAlarm k fun a => a.collect now).alarm i = h.alarm i :=
        Function.update_of_ne hik _ _
      rw [hother]
      simp only [List.mem_cons, hik, false_or]

theorem collect_polls (h : History ι κ) (now : Nat) (timers : List ι) :
    (h.collect now timers).polls = h.polls ∧ (h.collect now timers).notices = h.notices := by
  induction timers generalizing h with
  | nil => exact ⟨rfl, rfl⟩
  | cons k timers ih => exact ih (h.setAlarm k fun a => a.collect now)

/-- The collected timers and their alarms. -/
theorem Agrees.expired (inv : Agrees s) {now : UInt64} (hnow : s.clock ≤ now)
    {m' : TimerManager ι A κ} {h' : History ι κ}
    (fired : Fired now (s.mgr.unexpired now) (s.mgr.timers.filter (s.mgr.due now)) m')
    (halarm : ∀ i, h'.alarm i = if i ∈ s.mgr.timers.filter (s.mgr.due now)
      then (s.hist.alarm i).map (fun a => a.collect now.toNat) else s.hist.alarm i)
    (hfits : Sys.Fits ⟨m', now, h'⟩) : Agrees ⟨m', now, h'⟩ where
  ok := inv.ok.expired fired
  previous := by
    show m'.previousTime ≤ now
    rw [fired.previousTime]
    show (if s.mgr.timers = [] then s.mgr.previousTime else now) ≤ now
    split
    · exact UInt64.le_trans inv.previous hnow
    · exact UInt64.le_refl now
  known := by
    intro i t' ht'
    have htimer : (if i ∈ s.mgr.timers.filter (s.mgr.due now) then
        (s.mgr.timer i).map (Timer.fired now) else s.mgr.timer i) = some t' := by
      rw [← ht']
      exact (fired.timer i).symm
    show ∃ a, h'.alarm i = some a ∧ Tracks m' i t' a ∧ AlarmOk now.toNat a
    by_cases hdue : i ∈ s.mgr.timers.filter (s.mgr.due now)
    · rw [if_pos hdue] at htimer
      obtain ⟨t, ht, rfl⟩ := Option.map_eq_some_iff.mp htimer
      obtain ⟨a, ha, htracks, hok⟩ := inv.known i t ht
      obtain ⟨hlive, hpast⟩ := (inv.due_iff hnow ha).mp hdue
      have halarm' : h'.alarm i = some (a.collect now.toNat) := by
        rw [halarm i, if_pos hdue, ha]
        rfl
      exact ⟨a.collect now.toNat, halarm',
        htracks.fired hlive (fired.mem_of_due ht hdue) (hfits.deadline halarm'),
        (hok.mono (UInt64.le_iff_toNat_le.mp hnow)).collect hlive hpast⟩
    · rw [if_neg hdue] at htimer
      obtain ⟨a, ha, htracks, hok⟩ := inv.known i t' htimer
      refine ⟨a, ?_, htracks.congr (fired.mem_of_not_due hdue),
        hok.mono (UInt64.le_iff_toNat_le.mp hnow)⟩
      rw [halarm i, if_neg hdue]
      exact ha
  unknown := by
    intro i hi
    have hnone : s.mgr.timer i = none := by
      have htimer := fired.timer i
      rw [show m'.timer i = none from hi] at htimer
      split at htimer
      · exact Option.map_eq_none_iff.mp htimer.symm
      · exact htimer.symm
    show h'.alarm i = none
    rw [halarm i, inv.unknown i hnone]
    split
    · rfl
    · rfl

/-- A timer whose alarm is live has been put at a new deadline. -/
theorem Agrees.placed (inv : Agrees s) {now : UInt64} (hnow : s.clock ≤ now) {i : ι}
    {t' : Timer A κ} {a' : Alarm κ} {m' : TimerManager ι A κ} {h' : History ι κ}
    (hfits : Sys.Fits ⟨m', now, h'⟩) (placed : Placed s.mgr i t' m')
    (halarm : h'.alarm = Function.update s.hist.alarm i (some a')) (hcb : t'.cb = a'.cb)
    (hrecurring : t'.recurring = a'.recurring) (hperiod : t'.ms.toNat = a'.period)
    (hlive : a'.live = true) (hnext : a'.deadline < 2 ^ 64 → t'.next.toNat = a'.deadline)
    (hok : AlarmOk now.toNat a') : Agrees ⟨m', now, h'⟩ := by
  have ha : h'.alarm i = some a' := by rw [halarm, Function.update_self]
  refine inv.one hnow (inv.ok.placed placed) placed.previousTime placed.timer halarm
    (fun _ hk => placed.mem_iff hk) ?_ hok
  exact { cb := fun _ => hcb
          recurring := hrecurring
          period := hperiod
          mem := iff_of_true placed.mem hlive
          next := fun _ => hnext (hfits.deadline ha hlive) }

theorem setAlarm_alarm {h : History ι κ} {i : ι} {a : Alarm κ} (ha : h.alarm i = some a)
    (f : Alarm κ → Alarm κ) :
    (h.setAlarm i f).alarm = Function.update h.alarm i (some (f a)) := by
  rw [History.setAlarm, ha]
  rfl

/-- **Every timely operation keeps timers and alarms in step.** -/
theorem step_agrees {s' : Sys ι A κ} {move : UInt64 × Op ι A κ} (inv : Agrees s)
    (hmove : s.Timely move) (hstep : s.step move = some s') : Agrees s' := by
  obtain ⟨now, op⟩ := move
  obtain ⟨hnow, hfits⟩ := hmove
  rw [hstep] at hfits
  replace hfits : s'.Fits := hfits
  have hclock := UInt64.le_iff_toNat_le.mp hnow
  rw [Sys.step] at hstep
  split at hstep
  case h_2 => cases hstep
  rename_i o m' happly
  obtain rfl := Option.some.inj hstep
  have effect := apply_effect inv.ok happly
  have hok' := inv.ok.effect effect
  cases effect with
  | @added i addr ms cb recurring notified _ new placed front =>
    refine inv.placed hnow hfits placed rfl rfl rfl rfl ?_ toNat_add_of_fits
      (create_alarmOk _ _ _ _)
    simp [Alarm.create, Alarm.live]
  | @cancelled i t _ is cb timer perm sorted tickled previousTime =>
    obtain ⟨a, ha, htracks, hok⟩ := inv.known i t is
    have hout : i ∉ m'.timers :=
      (List.nodup_cons.mp (perm.nodup_iff.mp inv.ok.distinct.nodup)).1
    refine inv.one hnow (inv.ok.remove is timer rfl rfl perm sorted) previousTime timer
      (setAlarm_alarm ha _) (fun k hk => ?_) ?_ (hok.mono hclock).cancel
    · rw [perm.mem_iff, List.mem_cons]
      exact (or_iff_right hk).symm
    · exact { cb := fun hi => absurd hi hout
              recurring := htracks.recurring
              period := htracks.period
              mem := iff_of_false hout Bool.false_ne_true
              next := fun hi => absurd hi hout }
  | @refreshed i t _ is cb placed tickled =>
    obtain ⟨a, ha, htracks, hok⟩ := inv.known i t is
    have hin := inv.ok.live i t is cb
    refine inv.placed hnow hfits placed (setAlarm_alarm ha _) (htracks.cb hin) htracks.recurring
      htracks.period (htracks.mem.mp hin) (fun hlt => ?_) (hok.mono hclock).rearm
    have hdeadline : (a.rearm now.toNat).deadline = now.toNat + t.ms.toNat := by
      rw [htracks.period]
      rfl
    rw [hdeadline] at hlt ⊢
    exact toNat_add_of_fits hlt
  | @reset i t ms fromNow notified _ is cb other placed front =>
    obtain ⟨a, ha, htracks, hok⟩ := inv.known i t is
    have hin := inv.ok.live i t is cb
    have hstart : (t.start now fromNow).toNat = if fromNow then now.toNat else a.armed := by
      rw [Timer.start]
      cases fromNow with
      | true => rfl
      | false =>
        -- the start of the period is recovered from the deadline
        have hnext := htracks.next hin
        rw [Alarm.deadline, ← htracks.period] at hnext
        have hle : t.ms ≤ t.next := by
          rw [UInt64.le_iff_toNat_le]
          omega
        show (t.next - t.ms).toNat = a.armed
        rw [UInt64.toNat_sub_of_le _ _ hle]
        omega
    have hlow : a.armed ≤ (t.start now fromNow).toNat ∧
        (t.start now fromNow).toNat ≤ now.toNat := by
      rw [hstart]
      have := hok.armed_le
      split
      · exact ⟨Nat.le_trans this hclock, Nat.le_refl _⟩
      · exact ⟨Nat.le_refl _, Nat.le_trans this hclock⟩
    refine inv.placed hnow hfits placed (setAlarm_alarm ha _) (htracks.cb hin) htracks.recurring rfl
      (htracks.mem.mp hin) (fun hlt => ?_) ?_
    · rw [show (a.reset (if fromNow then now.toNat else a.armed) ms.toNat).deadline =
        (t.start now fromNow).toNat + ms.toNat by rw [hstart]; rfl] at hlt ⊢
      exact toNat_add_of_fits hlt
    · rw [← hstart]
      exact (hok.mono hclock).reset hlow.1 hlow.2 _
  | @resetSame i t is =>
    obtain ⟨a, ha, htracks, -⟩ := inv.known i t is
    have hsame : a.reset a.armed t.ms.toNat = a := by
      rw [Alarm.reset, if_pos htracks.period, htracks.period]
    refine inv.same hnow inv.ok rfl rfl rfl ((setAlarm_alarm ha _).trans ?_)
    rw [show (if false = true then now.toNat else a.armed) = a.armed from rfl, hsame]
    exact Function.update_eq_self_iff.mpr ha.symm
  | rejected is cb call =>
    obtain rfl | rfl | ⟨ms, fromNow, rfl⟩ := call
    · exact inv.same hnow inv.ok rfl rfl rfl rfl
    · exact inv.same hnow inv.ok rfl rfl rfl rfl
    · exact inv.same hnow inv.ok rfl rfl rfl rfl
  | polled ms => exact inv.same hnow hok' rfl rfl rfl rfl
  | expired fired =>
    refine inv.expired hnow fired (fun i => ?_) hfits
    show (s.hist.collect now.toNat (List.map Prod.fst _)).alarm i = _
    rw [List.map_map]
    exact (congrArg (fun l => (s.hist.collect now.toNat l).alarm i) (List.map_id _)).trans
      (collect_alarm s.hist now.toNat (inv.ok.distinct.nodup.filter _) i)

/-- In every state of a timely run, timers and alarms agree. -/
theorem agrees_of_timely (start : UInt64) (moves : List (UInt64 × Op ι A κ)) (s : Sys ι A κ)
    (htimely : Along Sys.step Sys.Timely (Sys.init ι A κ start) moves)
    (hrun : run Sys.step (Sys.init ι A κ start) moves = some s) : Agrees s :=
  run_induction (fun _ _ _ inv hmove hstep => step_agrees inv hmove hstep) moves _ s
    (init_agrees start) htimely hrun

end

end TinyTcp.Timers
