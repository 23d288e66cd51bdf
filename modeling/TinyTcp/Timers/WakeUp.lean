/-
TinyTcp.Timers.WakeUp — the waiting thread is told when it has to wake up
earlier, and once.

`get_next_time` clears `m_tickled`, and the private `add_timer` sets it
when it calls `on_timer_inserted_at_front`. `NoLostWakeUp` says of a state
that since any earlier `get_next_time` at which the earliest deadline was
later than it is now, there was a notification; and that there was never
more than one between two calls.

The invariant behind it ties the flag to the record: while it is set there
has been a notification since the last call. The operations that move
deadlines without going through `add_timer` (`refresh`, and the re-arming
of expired timers) only move them back, because a timer was armed no later
than now; that is what `Agrees` is needed for.
-/
import TinyTcp.Timers.Record

namespace TinyTcp.Timers

open TinyTcp.Lib

variable {ι A κ : Type}

/-! ## The property and its invariant -/

structure NoLostWakeUp (s : Sys ι A κ) : Prop where
  /-- an earlier deadline than at that call has been announced since -/
  announced : ∀ p ∈ s.hist.polls, s.mgr.wakeUp < p.1 → p.2 < s.hist.notices
  /-- at most one notification between two calls, -/
  between : s.hist.polls.IsChain fun p q => q.2 ≤ p.2 + 1
  /-- and since the last one -/
  since : ∀ p ∈ s.hist.polls.getLast?, s.hist.notices ≤ p.2 + 1

structure Tickled (s : Sys ι A κ) : Prop where
  counted : ∀ p ∈ s.hist.polls, p.2 ≤ s.hist.notices
  set : s.mgr.tickled = true → ∀ p ∈ s.hist.polls, p.2 < s.hist.notices
  announced : ∀ p ∈ s.hist.polls, s.mgr.wakeUp < p.1 → p.2 < s.hist.notices
  between : s.hist.polls.IsChain fun p q => q.2 ≤ p.2 + 1
  last : ∀ p ∈ s.hist.polls.getLast?, s.hist.notices = p.2 + s.mgr.tickled.toNat

theorem noLostWakeUp_of_tickled {s : Sys ι A κ} (inv : Tickled s) : NoLostWakeUp s where
  announced := inv.announced
  between := inv.between
  since := by
    intro p hp
    rw [inv.last p hp]
    exact Nat.add_le_add_left (Bool.toNat_le _) _

theorem init_tickled (start : UInt64) : Tickled (Sys.init ι A κ start) where
  counted := fun _ hp => absurd hp List.not_mem_nil
  set := fun _ _ hp => absurd hp List.not_mem_nil
  announced := fun _ hp => absurd hp List.not_mem_nil
  between := List.isChain_nil
  last := fun _ hp => by cases hp

/-- An operation that is not `get_next_time`: it notifies only with the flag
clear, and without a notification the earliest deadline has not moved
forward unless the flag is set. -/
theorem Tickled.moved {s s' : Sys ι A κ} (inv : Tickled s) {notified : Bool}
    (hpolls : s'.hist.polls = s.hist.polls)
    (hnotices : s'.hist.notices = s.hist.notices + notified.toNat)
    (htickled : s'.mgr.tickled = (s.mgr.tickled || notified))
    (hclear : notified = true → s.mgr.tickled = false)
    (hquiet : notified = false → s.mgr.tickled = false → s.mgr.wakeUp ≤ s'.mgr.wakeUp) :
    Tickled s' := by
  have hle : s.hist.notices ≤ s'.hist.notices := by
    rw [hnotices]
    exact Nat.le_add_right _ _
  cases notified with
  | true =>
    have hone : s'.hist.notices = s.hist.notices + 1 := hnotices
    have hlt : ∀ p ∈ s'.hist.polls, p.2 < s'.hist.notices := by
      intro p hp
      rw [hone]
      exact Nat.lt_succ_of_le (inv.counted p (hpolls ▸ hp))
    refine { counted := fun p hp => Nat.le_of_lt (hlt p hp), set := fun _ => hlt,
             announced := fun p hp _ => hlt p hp, between := hpolls ▸ inv.between, last := ?_ }
    intro p hp
    have hlast := inv.last p (hpolls ▸ hp)
    rw [hclear rfl] at hlast
    rw [htickled, hclear rfl, hone, hlast]
    rfl
  | false =>
    have hsame : s'.hist.notices = s.hist.notices := hnotices
    rw [Bool.or_false] at htickled
    refine { counted := ?_, set := ?_, announced := ?_, between := hpolls ▸ inv.between, last := ?_ }
    · intro p hp
      exact Nat.le_trans (inv.counted p (hpolls ▸ hp)) hle
    · intro hset p hp
      rw [hsame]
      exact inv.set (htickled ▸ hset) p (hpolls ▸ hp)
    · intro p hp hlt
      rw [hsame]
      cases hset : s.mgr.tickled with
      | true => exact inv.set hset p (hpolls ▸ hp)
      | false => exact inv.announced p (hpolls ▸ hp) (lt_of_le_of_lt (hquiet rfl hset) hlt)
    · intro p hp
      rw [hsame, htickled]
      exact inv.last p (hpolls ▸ hp)

/-- An operation that does not notify and does not move the earliest
deadline forward. -/
theorem Tickled.quiet {s s' : Sys ι A κ} (inv : Tickled s)
    (hpolls : s'.hist.polls = s.hist.polls) (hnotices : s'.hist.notices = s.hist.notices)
    (htickled : s'.mgr.tickled = s.mgr.tickled) (hwake : s.mgr.wakeUp ≤ s'.mgr.wakeUp) :
    Tickled s' := by
  have hor : s'.mgr.tickled = (s.mgr.tickled || false) := by rw [Bool.or_false, htickled]
  have hzero : s'.hist.notices = s.hist.notices + false.toNat := hnotices
  exact inv.moved hpolls hzero hor (fun h => by cases h) fun _ _ => hwake

/-- `get_next_time`. -/
theorem Tickled.polled {s s' : Sys ι A κ} (inv : Tickled s)
    (hpolls : s'.hist.polls = s.hist.polls ++ [(s.mgr.wakeUp, s.hist.notices)])
    (hnotices : s'.hist.notices = s.hist.notices) (htickled : s'.mgr.tickled = false)
    (hwake : s'.mgr.wakeUp = s.mgr.wakeUp) : Tickled s' where
  counted := by
    intro p hp
    rw [hpolls, List.mem_append, List.mem_singleton] at hp
    rw [hnotices]
    rcases hp with hp | rfl
    · exact inv.counted p hp
    · exact Nat.le_refl _
  set := by
    intro hset
    rw [htickled] at hset
    cases hset
  announced := by
    intro p hp hlt
    rw [hpolls, List.mem_append, List.mem_singleton] at hp
    rw [hwake] at hlt
    rw [hnotices]
    rcases hp with hp | rfl
    · exact inv.announced p hp hlt
    · exact absurd hlt (lt_irrefl _)
  between := by
    rw [hpolls]
    refine List.isChain_append.mpr ⟨inv.between, List.isChain_singleton _, ?_⟩
    intro p hp q hq
    obtain rfl := Option.some.inj hq
    show s.hist.notices ≤ p.2 + 1
    rw [inv.last p hp]
    exact Nat.add_le_add_left (Bool.toNat_le _) _
  last := by
    intro p hp
    rw [hpolls, List.getLast?_append, List.getLast?_singleton] at hp
    obtain rfl := Option.some.inj hp
    rw [hnotices, htickled]
    rfl

/-! ## The earliest deadline -/

/-- When every timer of the set afterwards was preceded by one of the set
before, the earliest deadline has not moved forward. -/
theorem wakeUp_mono {m m' : TimerManager ι A κ}
    (h : ∀ i ∈ m'.timers, ∀ t', m'.timer i = some t' →
      ∃ k ∈ m.timers, ∃ t, m.timer k = some t ∧ t.next.toNat ≤ t'.next.toNat)
    (hexist : ∀ i ∈ m'.timers, ∃ t, m'.timer i = some t) : m.wakeUp ≤ m'.wakeUp := by
  refine earliest_mono fun i hi => ?_
  obtain ⟨t', ht'⟩ := hexist i hi
  obtain ⟨k, hk, t, ht, hle⟩ := h i hi t' ht'
  refine ⟨k, hk, ?_⟩
  rw [ht, ht']
  exact WithTop.coe_le_coe.mpr hle

section

variable [DecidableEq ι] [LinearOrder A] {m m' : TimerManager ι A κ}

/-- A timer put at a place that is not the first one, or at a later one
than it had. -/
theorem wakeUp_placed {i : ι} {t' : Timer A κ} (placed : Placed m i t' m')
    (h : ∃ k ∈ m.timers, ∃ t, m.timer k = some t ∧ t.next.toNat ≤ t'.next.toNat) :
    m.wakeUp ≤ m'.wakeUp := by
  refine wakeUp_mono (fun k hk u hu => ?_) placed.distinct.exist
  by_cases hki : k = i
  · subst hki
    rw [placed.timer, m.setTimer_self, Option.some.injEq] at hu
    rw [← hu]
    exact h
  · rw [placed.timer, m.setTimer_other hki] at hu
    exact ⟨k, (placed.mem_iff hki).mp hk, u, hu, Nat.le_refl _⟩

/-- Not put in front: somebody else comes first. -/
theorem exists_before_of_not_front {i : ι} {t' : Timer A κ} (placed : Placed m i t' m')
    (front : Front m i m' false) (hclear : m.tickled = false) (hn : m.timers.Nodup) :
    ∃ k ∈ m.timers, ∃ t, m.timer k = some t ∧ t.next.toNat ≤ t'.next.toNat := by
  have hnot : ¬∀ k ∈ m.timers.erase i, m'.key i < m'.key k := by
    intro hall
    have := front.1.mpr ⟨hclear, hall⟩
    cases this
  obtain ⟨k, hk⟩ := not_forall.mp hnot
  obtain ⟨hmem, hle⟩ := Classical.not_imp.mp hk
  have hki : k ≠ i := by
    rintro rfl
    exact (List.Nodup.not_mem_erase hn) hmem
  have hin := List.mem_of_mem_erase hmem
  obtain ⟨u, hu⟩ := placed.distinct.exist k ((placed.mem_iff hki).mpr hin)
  have hself : m'.timer i = some t' := by rw [placed.timer, m.setTimer_self]
  have hnext := next_le_of_key_le hu hself (not_lt.mp hle)
  rw [placed.timer, m.setTimer_other hki] at hu
  exact ⟨k, hin, u, hu, UInt64.le_iff_toNat_le.mp hnext⟩

/-! ## One step -/

/-- A timer has been armed no later than now. -/
theorem Agrees.next_le {s : Sys ι A κ} (inv : Agrees s) {i : ι} {t : Timer A κ}
    (ht : s.mgr.timer i = some t) (hi : i ∈ s.mgr.timers) :
    t.next.toNat ≤ s.clock.toNat + t.ms.toNat := by
  obtain ⟨a, -, htracks, hok⟩ := inv.known i t ht
  rw [htracks.next hi, htracks.period, Alarm.deadline]
  exact Nat.add_le_add_right hok.armed_le a.period

/-- The clock and the period of a timer that is armed now give its deadline. -/
theorem Agrees.next_of_armed {s : Sys ι A κ} (inv : Agrees s) {i : ι} {t : Timer A κ}
    (ht : s.mgr.timer i = some t) (hi : i ∈ s.mgr.timers) {a : Alarm κ}
    (ha : s.hist.alarm i = some a) (harmed : a.armed = s.clock.toNat) :
    t.next.toNat = s.clock.toNat + t.ms.toNat := by
  obtain ⟨t', ht', htracks, -⟩ := inv.timer ha
  rw [ht] at ht'
  obtain rfl := Option.some.inj ht'
  rw [htracks.next hi, htracks.period, Alarm.deadline, harmed]

/-- The expired timers are armed again for later than they were. -/
theorem wakeUp_expired {s s' : Sys ι A κ} (inv : Agrees s) (inv' : Agrees s')
    (hclock : s.clock ≤ s'.clock)
    (fired : Fired s'.clock (s.mgr.unexpired s'.clock) (s.mgr.timers.filter (s.mgr.due s'.clock))
      s'.mgr)
    (halarm : ∀ i ∈ s.mgr.timers.filter (s.mgr.due s'.clock), s'.hist.alarm i
      = (s.hist.alarm i).map (fun a => a.collect s'.clock.toNat)) :
    s.mgr.wakeUp ≤ s'.mgr.wakeUp := by
  refine wakeUp_mono (fun i hi t' ht' => ?_) inv'.ok.distinct.exist
  have htimer := fired.timer i
  rw [ht'] at htimer
  split at htimer
  · rename_i hdue
    obtain ⟨t, ht, rfl⟩ := Option.map_eq_some_iff.mp htimer.symm
    obtain ⟨a, ha, htracks, -⟩ := inv.known i t ht
    have hin : i ∈ s.mgr.timers := List.mem_of_mem_filter hdue
    have halarm' := halarm i hdue
    rw [ha, Option.map_some] at halarm'
    -- it is back in the set because it is recurring
    have hr : a.recurring = true := htracks.recurring ▸ (fired.mem_of_due ht hdue).mp hi
    have hnew := inv'.next_of_armed ht' hi halarm' (if_pos hr)
    refine ⟨i, hin, t, ht, ?_⟩
    have hold := inv.next_le ht hin
    have hms : (t.fired s'.clock).ms = t.ms := by
      rw [Timer.fired]
      split
      · rfl
      · rfl
    rw [hnew, hms]
    have := UInt64.le_iff_toNat_le.mp hclock
    omega
  · rename_i hout
    exact ⟨i, (fired.mem_of_not_due hout).mp hi, t', htimer.symm, Nat.le_refl _⟩

/-- **Every timely operation keeps the record and the flag in step.** -/
theorem step_tickled {s s' : Sys ι A κ} {move : UInt64 × Op ι A κ} (agrees : Agrees s)
    (inv : Tickled s) (hmove : s.Timely move) (hstep : s.step move = some s') : Tickled s' := by
  have agrees' := step_agrees agrees hmove hstep
  obtain ⟨now, op⟩ := move
  have hnow : s.clock ≤ now := hmove.1
  rw [Sys.step] at hstep
  split at hstep
  case h_2 => cases hstep
  rename_i o m' happly
  obtain rfl := Option.some.inj hstep
  have hn := agrees.ok.distinct.nodup
  have effect := apply_effect agrees.ok happly
  cases effect with
  | @added i addr ms cb recurring notified _ new placed front =>
    refine inv.moved rfl rfl front.2 (fun h => (front.1.mp h).1) ?_
    rintro rfl hclear
    exact wakeUp_placed placed (exists_before_of_not_front placed front hclear hn)
  | @cancelled i t _ is cb timer perm sorted tickled previousTime =>
    refine inv.quiet rfl rfl tickled ?_
    refine wakeUp_mono (fun k hk u hu => ?_) agrees'.ok.distinct.exist
    have hki : k ≠ i := by
      rintro rfl
      exact (List.nodup_cons.mp (perm.nodup_iff.mp hn)).1 hk
    have hu' : m'.timer k = some u := hu
    rw [timer, s.mgr.setTimer_other hki] at hu'
    exact ⟨k, perm.mem_iff.mpr (List.mem_cons_of_mem i hk), u, hu', Nat.le_refl _⟩
  | @refreshed i t _ is cb placed tickled =>
    obtain ⟨a, ha, -, -⟩ := agrees.known i t is
    have hin := agrees.ok.live i t is cb
    have halarm : (s.hist.setAlarm i fun a => a.rearm now.toNat).alarm i
        = some (a.rearm now.toNat) := by
      rw [setAlarm_alarm ha, Function.update_self]
    have hself : m'.timer i = some { t with next := now + t.ms } := by
      rw [placed.timer, s.mgr.setTimer_self]
    have hnew : (now + t.ms).toNat = now.toNat + t.ms.toNat :=
      agrees'.next_of_armed hself placed.mem halarm rfl
    refine inv.quiet rfl rfl tickled (wakeUp_placed placed ⟨i, hin, t, is, ?_⟩)
    have hold := agrees.next_le is hin
    have := UInt64.le_iff_toNat_le.mp hnow
    show t.next.toNat ≤ (now + t.ms).toNat
    omega
  | @reset i t ms fromNow notified _ is cb other placed front =>
    refine inv.moved rfl rfl front.2 (fun h => (front.1.mp h).1) ?_
    rintro rfl hclear
    exact wakeUp_placed placed (exists_before_of_not_front placed front hclear hn)
  | resetSame is =>
    exact inv.quiet rfl rfl rfl (le_refl _)
  | rejected is cb call =>
    obtain rfl | rfl | ⟨ms, fromNow, rfl⟩ := call
    · exact inv.quiet rfl rfl rfl (le_refl _)
    · exact inv.quiet rfl rfl rfl (le_refl _)
    · exact inv.quiet rfl rfl rfl (le_refl _)
  | polled ms => exact inv.polled rfl rfl rfl rfl
  | expired fired =>
    have hids : ((s.mgr.timers.filter (s.mgr.due now)).map
        fun h => (h, (s.mgr.timer h).bind Timer.cb)).map Prod.fst
        = s.mgr.timers.filter (s.mgr.due now) := by
      rw [List.map_map]
      exact List.map_id _
    obtain ⟨hpolls, hnotices⟩ := collect_polls s.hist now.toNat (s.mgr.timers.filter (s.mgr.due now))
    refine inv.quiet ((congrArg (fun l => (s.hist.collect now.toNat l).polls) hids).trans hpolls)
      ((congrArg (fun l => (s.hist.collect now.toNat l).notices) hids).trans hnotices)
      fired.tickled (wakeUp_expired agrees agrees' hnow fired fun i hi => ?_)
    · show (s.hist.collect now.toNat (List.map Prod.fst _)).alarm i = _
      rw [hids, collect_alarm s.hist now.toNat (hn.filter _) i, if_pos hi]

/-! ## Runs -/

/-- What the runs below carry along. -/
structure Waking (s : Sys ι A κ) : Prop where
  agrees : Agrees s
  tickled : Tickled s

theorem step_waking {s s' : Sys ι A κ} {move : UInt64 × Op ι A κ} (inv : Waking s)
    (hmove : s.Timely move) (hstep : s.step move = some s') : Waking s' where
  agrees := step_agrees inv.agrees hmove hstep
  tickled := step_tickled inv.agrees inv.tickled hmove hstep

/-- **No lost wake-up**, in every state of a run in which the clock does not
go back and the deadlines stay below `2 ^ 64`. -/
theorem no_lost_wakeUp (start : UInt64) (moves : List (UInt64 × Op ι A κ)) (s : Sys ι A κ)
    (htimely : Along Sys.step Sys.Timely (Sys.init ι A κ start) moves)
    (hrun : run Sys.step (Sys.init ι A κ start) moves = some s) : NoLostWakeUp s := by
  have hinv : Waking s :=
    run_induction (fun _ _ _ inv hmove hstep => step_waking inv hmove hstep) moves _ s
      ⟨init_agrees start, init_tickled start⟩ htimely hrun
  exact noLostWakeUp_of_tickled hinv.tickled

/-- A timer is created after a poll, another one in front of it, and the
first one is reset to be earlier still. -/
theorem no_lost_wakeUp_three_fronts :
    ∃ s, run Sys.step (Sys.init (Fin 2) Nat Nat 100)
        [(100, .getNextTime), (100, .addTimer 0 8 50 (some 10) false),
         (110, .addTimer 1 4 30 (some 20) true), (120, .reset 0 10 true), (125, .getNextTime),
         (140, .listExpiredCb 16)] = some s ∧ NoLostWakeUp s := by
  obtain ⟨s, hrun⟩ := Option.isSome_iff_exists.mp (show (run Sys.step
        (Sys.init (Fin 2) Nat Nat 100)
        [(100, .getNextTime), (100, .addTimer 0 8 50 (some 10) false),
         (110, .addTimer 1 4 30 (some 20) true), (120, .reset 0 10 true), (125, .getNextTime),
         (140, .listExpiredCb 16)]).isSome = true by decide +kernel)
  exact ⟨s, hrun, no_lost_wakeUp 100 _ s (by decide +kernel) hrun⟩

end

end TinyTcp.Timers
