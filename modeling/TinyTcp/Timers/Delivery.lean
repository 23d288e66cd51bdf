/-
TinyTcp.Timers.Delivery — every callback at its time, and once.

`Delivery` says of a state what its users were promised up to it: a timer
that is not recurring has gone off at most once, a cancelled one not
since, and a recurring one not faster than its period. About the next
`list_expired_cb` it says that the callbacks taken are exactly those of
the alarms that are live and whose deadline the clock has reached, each
once. A `cancel`, `refresh` or `reset` of a live alarm is accepted.

`delivery_of_timely` has it after every timely run. All that is left to do
here is to read it off `Agrees`: the alarms have gone off only when the
code collected them, so what `AlarmOk` says of alarms is what happened.
-/
import TinyTcp.Timers.Handles
import TinyTcp.Timers.Record

namespace TinyTcp.Timers

open TinyTcp.Lib

variable {ι A κ : Type} [DecidableEq ι] [LinearOrder A]

structure Delivery (s : Sys ι A κ) : Prop where
  /-- a timer that is not recurring has been collected once at most -/
  once : ∀ i a, s.hist.alarm i = some a → a.recurring = false → a.fired.length ≤ 1
  /-- not since `cancel` returned true -/
  stopped : ∀ i a n, s.hist.alarm i = some a → a.cancelled = some n → a.fired.length = n
  /-- two collections in a row without a change of the period are a period apart -/
  spaced : ∀ i a, s.hist.alarm i = some a → a.fired.IsChain Apart
  /-- at the clock value `now`, the alarms that are live and due are collected, each once -/
  due : ∀ now probe cbs mgr, s.clock ≤ now →
    s.mgr.apply now (.listExpiredCb probe) = some (.collected cbs, mgr) → ∀ i a,
      s.hist.alarm i = some a → cbs.filter (fun c => c.1 = i)
        = if a.live = true ∧ a.deadline ≤ now.toNat then [(i, a.cb)] else []
  /-- nothing else is collected -/
  known : ∀ now probe cbs mgr, s.mgr.apply now (.listExpiredCb probe) = some (.collected cbs, mgr) →
    ∀ c ∈ cbs, ∃ a, s.hist.alarm c.1 = some a
  /-- a call that cancels or moves an alarm with a callback replies `true` while it is live -/
  accepted : ∀ i a now (c : HandleCall), s.hist.alarm i = some a → a.live = true →
    a.cb.isSome = true → ∃ notified mgr, s.mgr.apply now (c.op i) = some (.returned true notified, mgr)

/-- The entry of `i` among the callbacks of different timers. -/
theorem filter_map_eq {β : Type} {l : List ι} (hn : l.Nodup) (f : ι → β) (i : ι) :
    (l.map fun h => (h, f h)).filter (fun c => c.1 = i) = if i ∈ l then [(i, f i)] else [] := by
  induction l with
  | nil => rfl
  | cons k l ih =>
    obtain ⟨hk, hn'⟩ := List.nodup_cons.mp hn
    rw [List.map_cons, List.filter_cons, ih hn']
    by_cases hik : k = i
    · subst hik
      simp [hk]
    · simp [hik, Ne.symm hik]

theorem delivery_of_agrees {s : Sys ι A κ} (inv : Agrees s) : Delivery s where
  once := by
    intro i a ha hr
    obtain ⟨t, -, -, hok⟩ := inv.timer ha
    exact hok.once hr
  stopped := by
    intro i a n ha hn
    obtain ⟨t, -, -, hok⟩ := inv.timer ha
    exact hok.stopped n hn
  spaced := by
    intro i a ha
    obtain ⟨t, -, -, hok⟩ := inv.timer ha
    exact hok.spaced
  due := by
    intro now probe cbs mgr hnow happly i a ha
    obtain ⟨t, ht, htracks, -⟩ := inv.timer ha
    cases apply_effect inv.ok happly with
    | expired _ =>
      rw [filter_map_eq (inv.ok.distinct.nodup.filter _)]
      simp only [inv.due_iff hnow ha]
      split
      · rename_i hdue
        rw [ht, Option.bind_some, htracks.cb (htracks.mem.mpr hdue.1)]
      · rfl
  known := by
    intro now probe cbs mgr happly c hc
    cases apply_effect inv.ok happly with
    | expired _ =>
      obtain ⟨h, hh, rfl⟩ := List.mem_map.mp hc
      obtain ⟨t, ht⟩ := inv.ok.distinct.exist h (List.mem_of_mem_filter hh)
      obtain ⟨a, ha, -⟩ := inv.known h t ht
      exact ⟨a, ha⟩
  accepted := by
    intro i a now c ha hlive hcb
    obtain ⟨t, ht, htracks, -⟩ := inv.timer ha
    have hin := htracks.mem.mpr hlive
    rw [← htracks.cb hin] at hcb
    exact apply_of_callback now inv.ok ht hcb

/-- **Timer delivery**, after every run in which the clock does not go back
and the deadlines stay below `2 ^ 64`. -/
theorem delivery_of_timely (start : UInt64) (moves : List (UInt64 × Op ι A κ)) (s : Sys ι A κ)
    (htimely : Along Sys.step Sys.Timely (Sys.init ι A κ start) moves)
    (hrun : run Sys.step (Sys.init ι A κ start) moves = some s) : Delivery s :=
  delivery_of_agrees (agrees_of_timely start moves s htimely hrun)

/-- A single timer and a recurring one, which is reset and collected twice. -/
theorem delivery_two_timers :
    ∃ s, run Sys.step (Sys.init (Fin 2) Nat Nat 100)
        [(100, .addTimer 0 8 50 (some 10) false), (110, .addTimer 1 4 30 (some 20) true),
         (120, .reset 1 40 false), (150, .listExpiredCb 16), (150, .cancel 0), (160, .refresh 1),
         (200, .listExpiredCb 16)] = some s ∧ Delivery s := by
  obtain ⟨s, hrun⟩ := Option.isSome_iff_exists.mp (show (run Sys.step
        (Sys.init (Fin 2) Nat Nat 100)
        [(100, .addTimer 0 8 50 (some 10) false), (110, .addTimer 1 4 30 (some 20) true),
         (120, .reset 1 40 false), (150, .listExpiredCb 16), (150, .cancel 0), (160, .refresh 1),
         (200, .listExpiredCb 16)]).isSome = true by decide +kernel)
  exact ⟨s, hrun, delivery_of_timely 100 _ s (by decide +kernel) hrun⟩

end TinyTcp.Timers
