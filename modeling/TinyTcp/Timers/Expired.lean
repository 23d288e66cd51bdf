/-
TinyTcp.Timers.Expired — `list_expired_cb` takes exactly what is due.

`Collected` says what the callbacks that are handed out and the set that is
left have to be. `listExpiredCb_exact` is for every ordered set of timers,
every earlier and every present clock value, and every address of the timer
that the search compares with; only the order of the set is assumed, and
that different timers live at different addresses. `expired_iff_wait`: with
no roll-over there is something to call exactly if `get_next_time` says
that there is nothing to wait for.
-/
import TinyTcp.Timers.Ordered

namespace TinyTcp.Timers

open TinyTcp.Lib

variable {ι A κ : Type}

theorem Timer.fired_recurring (now : UInt64) {t : Timer A κ} (h : t.recurring = true) :
    t.fired now = { t with next := now + t.ms } := if_pos h

theorem Timer.fired_oneShot (now : UInt64) {t : Timer A κ} (h : t.recurring = false) :
    t.fired now = { t with cb := none } := by
  rw [Timer.fired, h, if_neg Bool.false_ne_true]

/-! ## What is wanted -/

/-- The deadline of one timer is not after that of the other. -/
def NotAfter (m : TimerManager ι A κ) (h k : ι) : Prop :=
  ∀ t u, m.timer h = some t → m.timer k = some u → t.next ≤ u.next

/-- What `list_expired_cb` has to make of a set: the timers whose callbacks it takes, and the
set it leaves. -/
structure Collected [LinearOrder A] (m : TimerManager ι A κ) (now : UInt64) (cbs : List (ι × Option κ))
    (m' : TimerManager ι A κ) : Prop where
  own : ∀ p ∈ cbs, p.2 = (m.timer p.1).bind Timer.cb
  due : (m.detectClockRollOver now).1 = false → ∀ h, h ∈ cbs.map Prod.fst ↔
    h ∈ m.timers ∧ ∃ t, m.timer h = some t ∧ t.next ≤ now
  all : (m.detectClockRollOver now).1 = true → cbs.map Prod.fst = m.timers
  once : (cbs.map Prod.fst).Nodup
  inOrder : (cbs.map Prod.fst).Pairwise (NotAfter m)
  oneShot : ∀ h ∈ cbs.map Prod.fst, ∀ t, m.timer h = some t → t.recurring = false →
    h ∉ m'.timers ∧ m'.timer h = some { t with cb := none }
  recurring : ∀ h ∈ cbs.map Prod.fst, ∀ t, m.timer h = some t → t.recurring = true →
    h ∈ m'.timers ∧ m'.timer h = some { t with next := now + t.ms }
  others : ∀ h ∉ cbs.map Prod.fst, (h ∈ m'.timers ↔ h ∈ m.timers) ∧ m'.timer h = m.timer h
  sorted : OrderedSet.Sorted m'.key m'.timers

variable {m : TimerManager ι A κ}

/-! ## What is done -/

/-- The timers taken are in the order of their deadlines. -/
theorem pairwise_notAfter [LinearOrder A] (sorted : OrderedSet.Sorted m.key m.timers) {hs : List ι}
    (hsub : hs.Sublist m.timers) : hs.Pairwise (NotAfter m) := by
  refine (List.Pairwise.sublist hsub sorted).imp fun hlt t u ht hu => ?_
  exact next_le_of_key_le ht hu (le_of_lt hlt)

variable [LinearOrder A]

/-- `get_next_time` returns zero if the earliest timer is due, and at no other time. -/
theorem getNextTime_eq_zero_iff (sorted : OrderedSet.Sorted m.key m.timers)
    (d : Distinct m m.timers) {now : UInt64} (hroll : (m.detectClockRollOver now).1 = false) :
    (m.getNextTime now).1 = 0 ↔ m.timers.filter (m.due now) ≠ [] := by
  cases hl : m.timers with
  | nil =>
    have hmax : (m.getNextTime now).1 = 18446744073709551615 := by
      simp [TimerManager.getNextTime, hl]
    rw [hmax]
    exact iff_of_false (by decide) (fun hne => hne rfl)
  | cons k rest =>
    have hk : k ∈ m.timers := hl ▸ List.mem_cons_self
    obtain ⟨u, hu⟩ := d.exist k hk
    have hwait : (m.getNextTime now).1 = if u.next ≤ now then 0 else u.next - now := by
      have hhead : ({ m with tickled := false } : TimerManager ι A κ).timers.head?.bind
          ({ m with tickled := false } : TimerManager ι A κ).next = some u.next := by
        show m.timers.head?.bind m.next = some u.next
        rw [hl, List.head?_cons, Option.bind_some, TimerManager.next, hu, Option.map_some]
      simp only [TimerManager.getNextTime, hhead]
      split
      · rfl
      · rfl
    rw [hwait, ← hl]
    by_cases hle : u.next ≤ now
    · rw [if_pos hle]
      exact iff_of_true rfl
        (List.ne_nil_of_mem (List.mem_filter.mpr ⟨hk, (due_iff hroll hu).mpr hle⟩))
    · rw [if_neg hle]
      have hlt : now < u.next := by
        rw [UInt64.le_iff_toNat_le] at hle
        rw [UInt64.lt_iff_toNat_lt]
        omega
      have hahead : (m.timers.head?.bind m.next).any (now < ·) = true := by
        simpa [hl, TimerManager.next, hu] using hlt
      refine iff_of_false ?_ fun hne => hne ?_
      · intro hzero
        have heq : u.next = now := by
          have := congrArg (· + now) hzero
          simpa using this
        exact UInt64.lt_irrefl now (heq ▸ hlt)
      · rw [List.filter_eq_nil_iff]
        intro h hh
        rw [due_of_head sorted d hroll hahead hh]
        exact Bool.false_ne_true

variable [DecidableEq ι]

theorem listExpiredCb_collected (sorted : OrderedSet.Sorted m.key m.timers)
    (d : Distinct m m.timers) (now : UInt64) (probe : A) :
    Collected m now (m.listExpiredCb now probe).1 (m.listExpiredCb now probe).2 := by
  obtain ⟨hcbs, -, hfired⟩ := listExpiredCb_spec sorted d now probe
  have hfst : (m.listExpiredCb now probe).1.map Prod.fst = m.timers.filter (m.due now) := by
    rw [hcbs, List.map_map]
    exact List.map_id _
  refine { own := ?_, due := ?_, all := ?_, once := ?_, inOrder := ?_, oneShot := ?_,
           recurring := ?_, others := ?_, sorted := hfired.sorted }
  · rw [hcbs]
    intro p hp
    obtain ⟨h, -, rfl⟩ := List.mem_map.mp hp
    rfl
  · intro hroll h
    rw [hfst, List.mem_filter]
    refine and_congr_right fun hh => ?_
    obtain ⟨t, ht⟩ := d.exist h hh
    rw [due_iff hroll ht]
    constructor
    · intro hle
      exact ⟨t, ht, hle⟩
    · rintro ⟨u, hu, hle⟩
      cases ht.symm.trans hu
      exact hle
  · intro hroll
    rw [hfst, List.filter_eq_self]
    exact fun h _ => due_of_rollOver hroll h
  · rw [hfst]
    exact d.nodup.filter _
  · rw [hfst]
    exact pairwise_notAfter sorted List.filter_sublist
  · rw [hfst]
    intro h hh t ht hr
    constructor
    · rw [hfired.mem_of_due ht hh, hr]
      exact Bool.false_ne_true
    · rw [hfired.timer h, if_pos hh]
      exact (congrArg (Option.map _) ht).trans (congrArg some (Timer.fired_oneShot now hr))
  · rw [hfst]
    intro h hh t ht hr
    constructor
    · exact (hfired.mem_of_due ht hh).mpr hr
    · rw [hfired.timer h, if_pos hh]
      exact (congrArg (Option.map _) ht).trans (congrArg some (Timer.fired_recurring now hr))
  · rw [hfst]
    intro h hh
    exact ⟨hfired.mem_of_not_due hh, by rw [hfired.timer h, if_neg hh]⟩

/-- **Exactly the due timers**, whatever the clock was before and is now, and wherever the
timer of the search lives; without a roll-over there are some exactly if `get_next_time`
returns zero. -/
theorem listExpiredCb_exact (sorted : OrderedSet.Sorted m.key m.timers)
    (d : Distinct m m.timers) (now : UInt64) (probe : A) :
    Collected m now (m.listExpiredCb now probe).1 (m.listExpiredCb now probe).2 ∧
      ((m.detectClockRollOver now).1 = false →
        ((m.listExpiredCb now probe).1 ≠ [] ↔ (m.getNextTime now).1 = 0)) := by
  refine ⟨listExpiredCb_collected sorted d now probe, fun hroll => ?_⟩
  rw [getNextTime_eq_zero_iff sorted d hroll, (listExpiredCb_spec sorted d now probe).1, ne_eq,
    List.map_eq_nil_iff]

/-- A timer that is due, one at exactly now that comes again at once, and one that is ahead. -/
theorem listExpiredCb_exact_three :
    ∃ m, run TimerManager.step (.create (Fin 3) Nat Nat 100)
        [(100, .addTimer 0 8 5 (some 10) false), (105, .addTimer 1 24 0 (some 20) true),
         (105, .addTimer 2 4 1 (some 30) false)] = some m ∧
      Collected m 105 (m.listExpiredCb 105 16).1 (m.listExpiredCb 105 16).2 ∧
      ((m.detectClockRollOver 105).1 = false →
        ((m.listExpiredCb 105 16).1 ≠ [] ↔ (m.getNextTime 105).1 = 0)) := by
  obtain ⟨m, hrun⟩ := Option.isSome_iff_exists.mp
    (show (run TimerManager.step (.create (Fin 3) Nat Nat 100)
        [(100, .addTimer 0 8 5 (some 10) false), (105, .addTimer 1 24 0 (some 20) true),
         (105, .addTimer 2 4 1 (some 30) false)]).isSome = true by decide +kernel)
  have hinv := run_fullOk (by decide) hrun
  exact ⟨m, hrun, listExpiredCb_exact hinv.sorted hinv.distinct 105 16⟩

end TinyTcp.Timers
