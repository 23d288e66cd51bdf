/-
TinyTcp.Timers.Handles — what `cancel`, `refresh` and `reset` tell the
holder of a timer.

A timer leaves the set by a cancel or, if it is not recurring, by firing;
both clear its callback, and in every reachable state the timers without a
callback are exactly those outside the set. `cancel` and `refresh` test the
callback first. `reset` has a test in front of it: when the period is the
old one and `from_now` is false it returns `true` at once, for a timer that
is no longer scheduled as well.

`truthful_iff` says that this is the only untruthful answer: after every
run, a call tells whether its timer was in the set, and changes nothing
when it refuses, if and only if it is not such a `reset` of a timer outside
the set.
-/
import TinyTcp.Timers.Ordered

namespace TinyTcp.Timers

open TinyTcp.Lib

variable {ι A κ : Type}

/-- A call through a timer's shared pointer. -/
inductive HandleCall where
  | cancel
  | refresh
  | reset (ms : UInt64) (fromNow : Bool)
  deriving DecidableEq

def HandleCall.op (h : ι) : HandleCall → Op ι A κ
  | .cancel => .cancel h
  | .refresh => .refresh h
  | .reset ms fromNow => .reset h ms fromNow

/-- The call takes the first branch of `reset`, in front of every test. -/
def HandleCall.Same (t : Timer A κ) (c : HandleCall) : Prop := c = .reset t.ms false

theorem HandleCall.valid {m : TimerManager ι A κ} {h : ι} {t : Timer A κ} (ht : m.timer h = some t)
    (c : HandleCall) : (c.op h).Valid m := by
  cases c <;> exact ⟨t, ht⟩

variable [LinearOrder A]

/-- Outside the set there is no callback left. -/
theorem FullOk.cb_of_not_mem {m : TimerManager ι A κ} {h : ι} {t : Timer A κ} (inv : FullOk m)
    (ht : m.timer h = some t) (hout : h ∉ m.timers) : t.cb = none := by
  by_contra hne
  exact hout (inv.live h t ht (Option.isSome_iff_ne_none.mpr hne))

variable [DecidableEq ι]

/-- The call returns, it returns `true` exactly for a timer of the set, and
a refusal leaves everything as it was. -/
def Truthful (m : TimerManager ι A κ) (now : UInt64) (h : ι) (c : HandleCall) : Prop :=
  ∃ ok notified m', m.apply now (c.op h) = some (.returned ok notified, m') ∧
    (ok = true ↔ h ∈ m.timers) ∧ (ok = false → m' = m)

variable {m m' : TimerManager ι A κ} {h : ι} {t : Timer A κ} {c : HandleCall} {o : Outcome ι κ}
  (now : UInt64)

/-! ## The three answers -/

/-- The first branch of `reset` answers `true`, whatever the timer's state. -/
theorem apply_of_same (ht : m.timer h = some t) (hsame : c.Same t) :
    m.apply now (c.op h) = some (.returned true false, m) := by
  rw [hsame, HandleCall.op, TimerManager.apply, reset_same now ht]
  rfl

/-- A timer without a callback is refused, and nothing changes. -/
theorem apply_of_empty (ht : m.timer h = some t) (hcb : t.cb = none) (hother : ¬c.Same t) :
    m.apply now (c.op h) = some (.returned false false, m) := by
  cases c with
  | cancel =>
    rw [HandleCall.op, TimerManager.apply, cancel_empty ht hcb]
    rfl
  | refresh =>
    rw [HandleCall.op, TimerManager.apply, refresh_empty now ht hcb]
    rfl
  | reset ms fromNow =>
    have hnew : ¬(ms = t.ms ∧ fromNow = false) := by
      rintro ⟨rfl, rfl⟩
      exact hother rfl
    rw [HandleCall.op, TimerManager.apply, reset_empty now ht hcb hnew]
    rfl

/-- A call on a timer with a callback that returns has accepted. -/
theorem accepted_of_effect {now : UInt64} (ht : m.timer h = some t) (hcb : t.cb.isSome = true)
    (he : Effect m now (c.op h) o m') : ∃ notified, o = .returned true notified := by
  cases c <;> cases he
  case cancel.rejected k u hu hnone call | refresh.rejected k u hu hnone call |
      reset.rejected k u hu hnone call =>
    obtain rfl : h = k := by
      rcases call with hop | hop | ⟨_, _, hop⟩ <;> cases hop
      rfl
    obtain rfl : u = t := Option.some.inj (hu.symm.trans ht)
    rw [hnone] at hcb
    cases hcb
  all_goals exact ⟨_, rfl⟩

/-- A timer with a callback is not refused. -/
theorem apply_of_callback (inv : SetOk m) (ht : m.timer h = some t) (hcb : t.cb.isSome = true) :
    ∃ notified m', m.apply now (c.op h) = some (.returned true notified, m') := by
  have htotal : ∃ r, m.apply now (c.op h) = some r := apply_total inv (c.valid ht)
  obtain ⟨⟨o, m'⟩, happly⟩ := htotal
  obtain ⟨notified, rfl⟩ := accepted_of_effect ht hcb (apply_effect inv happly)
  exact ⟨notified, m', happly⟩

/-! ## When the answer is true -/

theorem FullOk.truthful_iff_pending (inv : FullOk m) (ht : m.timer h = some t) :
    Truthful m now h c ↔ ¬(c.Same t ∧ h ∉ m.timers) := by
  constructor
  · rintro ⟨ok, notified, m', happly, hok, -⟩ ⟨hsame, hout⟩
    rw [apply_of_same now ht hsame] at happly
    cases happly
    exact hout (hok.mp rfl)
  · intro hcond
    by_cases hin : h ∈ m.timers
    · obtain ⟨notified, m', happly⟩ :=
        apply_of_callback now (c := c) inv.toSetOk ht (inv.full h hin t ht)
      exact ⟨true, notified, m', happly, iff_of_true rfl hin, nofun⟩
    · have hother : ¬c.Same t := fun hsame => hcond ⟨hsame, hin⟩
      have happly := apply_of_empty now ht (inv.cb_of_not_mem ht hin) hother
      exact ⟨false, false, m, happly, iff_of_false nofun hin, fun _ => rfl⟩

/-- **The only untruthful answer.** After every run of operations whose
timers have a callback, and for every timer, a call of `cancel`, `refresh`
or `reset` tells whether the timer is in the set, and changes nothing when
it refuses, exactly if it is not a `reset` to the period the timer has,
without `from_now`, of a timer that is out of the set. -/
theorem truthful_iff (start : UInt64) (moves : List (UInt64 × Op ι A κ)) (m : TimerManager ι A κ)
    (hcb : ∀ mv ∈ moves, mv.2.hasCallback = true)
    (hrun : run TimerManager.step (.create ι A κ start) moves = some m) (now : UInt64) (h : ι)
    (t : Timer A κ) (ht : m.timer h = some t) (c : HandleCall) :
    Truthful m now h c ↔ ¬(c.Same t ∧ h ∉ m.timers) :=
  (run_fullOk hcb hrun).truthful_iff_pending now ht

/-- A timer of ten milliseconds is created and cancelled. -/
def cancelledMoves : List (UInt64 × Op Nat Nat Nat) :=
  [(100, .addTimer 0 8 10 (some 7) false), (101, .cancel 0)]

theorem run_cancelledMoves :
    ∃ m, run TimerManager.step (.create Nat Nat Nat 0) cancelledMoves = some m ∧
      m.timers = [] ∧ m.timer 0 = some ⟨8, false, 10, 110, none⟩ := by
  have hrun : (run TimerManager.step (.create Nat Nat Nat 0) cancelledMoves).map
      (fun m => (m.timers, m.timer 0)) = some ([], some ⟨8, false, 10, 110, none⟩) := by decide
  obtain ⟨m, hm, heq⟩ := Option.map_eq_some_iff.mp hrun
  rw [Prod.mk.injEq] at heq
  exact ⟨m, hm, heq⟩

/-- A cancelled timer refuses a reset to another period, as it should. -/
theorem truthful_after_cancel :
    ∃ m, run TimerManager.step (.create Nat Nat Nat 0) cancelledMoves = some m ∧
      Truthful m 102 0 (.reset 20 false) := by
  obtain ⟨m, hrun, -, ht⟩ := run_cancelledMoves
  refine ⟨m, hrun, ?_⟩
  rw [truthful_iff 0 cancelledMoves m (by decide) hrun 102 0 _ ht]
  rintro ⟨hsame, -⟩
  cases hsame

/-- A cancelled timer accepts a reset to the period it had. -/
theorem not_truthful_after_cancel :
    ∃ m, run TimerManager.step (.create Nat Nat Nat 0) cancelledMoves = some m ∧
      ¬Truthful m 102 0 (.reset 10 false) := by
  obtain ⟨m, hrun, hempty, ht⟩ := run_cancelledMoves
  refine ⟨m, hrun, ?_⟩
  rintro ⟨ok, notified, m', happly, hok, -⟩
  rw [apply_of_same 102 ht rfl] at happly
  cases happly
  rw [hempty] at hok
  cases hok.mp rfl

end TinyTcp.Timers
