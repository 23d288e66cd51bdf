/-
TinyTcp.Stack.TimerPath — a callback on its way from `add_timer` to the
working thread: `TimerManager` of `src/timer.cc` and `timer_thread_func` and
`work_thread_func` of `src/net/net.cc` together.

Any thread adds, cancels, refreshes and resets timers at any moment, the
timer thread collects what is due and sends it, and the working thread runs
it some time later. The clock may say what it wants.

`runs_of_timer` is about every such run: a callback that runs is the one its
timer was given, a timer that is not recurring has it run once at most, and
after `cancel` has returned true it runs at most as often as it had been
collected by then. For a timer that is not recurring this is never.

## How the proof goes

`Change` says what a call of the manager does to one timer, in one of four
ways, and `expired_timer` what a collection does. What the
threads of the stack do to a callback is in `line`: it never gets more than
what was collected.
-/
import TinyTcp.Timers.Ordered
import TinyTcp.Msg.Callbacks

namespace TinyTcp.Stack

open TinyTcp.Lib TinyTcp.Msg
open TinyTcp.Timers (Timer TimerManager Op Outcome SetOk Effect Placed Fired)

variable {ι η A κ : Type}

/-! ## The stack -/

structure ProtocolStack (ι η A κ : Type) where
  mgr : TimerManager η A κ
  /-- a callback goes with the handle of its timer -/
  sys : Sys ι (η × κ)
  /-- the callback that a timer was created with -/
  given : η → Option κ
  /-- how often a timer had been collected when `cancel` returned true -/
  cancelled : η → Option Nat

/-- A call of the manager, `list_expired_cb` in the timer thread, or a step
of the threads. -/
inductive Move (ι η A κ : Type) where
  | manager (now : UInt64) (op : Op η A κ)
  | expire (now : UInt64) (probe : A)
  | msg (act : Act ι (η × κ))
  deriving DecidableEq

/-- What goes on to the timer thread. -/
def bound (cbs : List (η × Option κ)) : List (Option (η × κ)) :=
  cbs.map fun c => c.2.map (Prod.mk c.1)

namespace ProtocolStack

def create (sys : Sys ι (η × κ)) (now : UInt64) : ProtocolStack ι η A κ where
  mgr := .create η A κ now
  sys := sys
  given := fun _ => none
  cancelled := fun _ => none

variable [DecidableEq η] (s : ProtocolStack ι η A κ)

/-- How often the timer's callback was collected. -/
def collected (h : η) : Nat := ((allJobs s.sys.hist.taken).map fun j => j.cb.1).count h

/-- How often it ran. -/
def runs (h : η) : Nat := (s.sys.hist.ran.map fun j => j.cb.1).count h

def record : Op η A κ → Outcome η κ → ProtocolStack ι η A κ
  | .addTimer h _ _ cb _, _ => { s with given := Function.update s.given h cb }
  | .cancel h, .returned true _ =>
      { s with cancelled := Function.update s.cancelled h (some (s.collected h)) }
  | _, _ => s

variable [DecidableEq ι] [LinearOrder A]

/-- Only the timer thread collects, and between two batches. -/
def step (s : ProtocolStack ι η A κ) : Move ι η A κ → Option (ProtocolStack ι η A κ)
  | .manager _ (.listExpiredCb _) => none
  | .manager now op => (s.mgr.apply now op).map fun r => { s.record op r.1 with mgr := r.2 }
  | .expire now probe =>
      match s.sys.timer with
      | .idle =>
          let (cbs, mgr) := s.mgr.listExpiredCb now probe
          (s.sys.next (.expire (bound cbs))).map fun sys => { s with mgr := mgr, sys := sys }
      | _ => none
  | .msg (.expire _) => none
  | .msg act => (s.sys.next act).map fun sys => { s with sys := sys }

end ProtocolStack

/-! ## One timer -/

/-- What an operation of a user does to the timer `h`. -/
inductive Change [LinearOrder A] (m : TimerManager η A κ) (now : UInt64) (op : Op η A κ)
    (o : Outcome η κ) (m' : TimerManager η A κ) (h : η) : Prop
  | none (timer : m'.timer h = m.timer h) (mem : h ∈ m'.timers ↔ h ∈ m.timers)
      (other : ∀ addr ms cb recurring, op ≠ .addTimer h addr ms cb recurring)
      (other' : ∀ notified, op = .cancel h → o ≠ .returned true notified)
  | created {addr : A} {ms : UInt64} {cb : Option κ} {recurring : Bool} (new : m.timer h = .none)
      (timer : m'.timer h = some (.create now addr ms cb recurring))
      (op : op = .addTimer h addr ms cb recurring)
  | moved {t t' : Timer A κ} (is : m.timer h = some t) (mem : h ∈ m.timers)
      (timer : m'.timer h = some t') (cb : t'.cb = t.cb) (recurring : t'.recurring = t.recurring)
      (other : ∀ addr ms cb recurring, op ≠ .addTimer h addr ms cb recurring) (other' : op ≠ .cancel h)
  | cancelled {t : Timer A κ} {notified : Bool} (is : m.timer h = some t) (mem : h ∈ m.timers)
      (timer : m'.timer h = some { t with cb := .none }) (out : h ∉ m'.timers) (op : op = .cancel h)
      (outcome : o = .returned true notified)

section

variable [DecidableEq η] [LinearOrder A] {m m' : TimerManager η A κ} {now : UInt64}
  {op : Op η A κ} {o : Outcome η κ}

/-- Every operation but `list_expired_cb` does one of these to each timer. -/
theorem change_of_effect (ok : SetOk m) (hother : ∀ probe, op ≠ .listExpiredCb probe)
    (e : Effect m now op o m') (h : η) : Change m now op o m' h := by
  cases e with
  | @added k addr ms cb recurring _ _ new placed _ =>
    by_cases hk : h = k
    · subst hk
      refine .created new ?_ rfl
      rw [placed.timer, m.setTimer_self]
    · refine .none ?_ (placed.mem_iff hk) ?_ nofun
      · rw [placed.timer, m.setTimer_other hk]
      · rintro _ _ _ _ ⟨⟩
        exact hk rfl
  | @cancelled k t _ is cb timer perm _ _ _ =>
    by_cases hk : h = k
    · subst hk
      have hout := (List.nodup_cons.mp (perm.nodup_iff.mp ok.distinct.nodup)).1
      refine .cancelled is (ok.live h t is cb) ?_ hout rfl rfl
      rw [timer, m.setTimer_self]
    · refine .none ?_ ?_ nofun ?_
      · rw [timer, m.setTimer_other hk]
      · rw [perm.mem_iff, List.mem_cons, or_iff_right hk]
      · rintro _ ⟨⟩
        exact absurd rfl hk
  | @refreshed k t _ is cb placed _ =>
    by_cases hk : h = k
    · subst hk
      have htimer := congrFun placed.timer h
      rw [m.setTimer_self] at htimer
      exact .moved is (ok.live h t is cb) htimer rfl rfl nofun nofun
    · exact .none (by rw [placed.timer, m.setTimer_other hk]) (placed.mem_iff hk) nofun nofun
  | @reset k t ms fromNow _ _ is cb other placed _ =>
    by_cases hk : h = k
    · subst hk
      have htimer := congrFun placed.timer h
      rw [m.setTimer_self] at htimer
      exact .moved is (ok.live h t is cb) htimer rfl rfl nofun nofun
    · exact .none (by rw [placed.timer, m.setTimer_other hk]) (placed.mem_iff hk) nofun nofun
  | resetSame is => exact .none rfl Iff.rfl nofun nofun
  | rejected is cb call =>
    refine .none rfl Iff.rfl ?_ fun _ _ => nofun
    rcases call with rfl | rfl | ⟨_, _, rfl⟩
    · nofun
    · nofun
    · nofun
  | polled ms => exact .none rfl Iff.rfl nofun nofun
  | expired fired => exact absurd rfl (hother _)

/-- What `list_expired_cb` does to the timer `h`. -/
theorem expired_timer (ok : SetOk m)
    (fired : Fired now (m.unexpired now) (m.timers.filter (m.due now)) m') (h : η) :
    if h ∈ m.timers.filter (m.due now) then
      ∃ t, m.timer h = some t ∧ m'.timer h = some (t.fired now) ∧ (h ∈ m'.timers ↔ t.recurring = true)
    else m'.timer h = m.timer h ∧ (h ∈ m'.timers ↔ h ∈ m.timers) := by
  have htimer := fired.timer h
  split
  · next hdue =>
    obtain ⟨t, ht⟩ := ok.distinct.exist h (List.mem_of_mem_filter hdue)
    rw [if_pos hdue] at htimer
    exact ⟨t, ht, by simpa [TimerManager.unexpired, ht] using htimer, fired.mem_of_due ht hdue⟩
  · next hdue =>
    rw [if_neg hdue] at htimer
    exact ⟨htimer, fired.mem_of_not_due hdue⟩

end

/-! ## The invariant -/

variable [DecidableEq η]

/-- The stack in the middle of a run, with what was collected so far. -/
structure Inv [LinearOrder A] (blocks : Multiset MsgPtr) (s : ProtocolStack ι η A κ) : Prop where
  ok : SetOk s.mgr
  msg : ∃ lost, Msg.Inv blocks s.sys lost
  line : s.sys.line.Sublist (allJobs s.sys.hist.taken)
  new : ∀ h, s.mgr.timer h = none → s.collected h = 0 ∧ s.cancelled h = none
  once : ∀ h t, s.mgr.timer h = some t → t.recurring = false →
    s.collected h ≤ 1 ∧ (h ∈ s.mgr.timers → s.collected h = 0)
  stopped : ∀ h n, s.cancelled h = some n → s.collected h = n ∧ h ∉ s.mgr.timers ∧
    ∃ t, s.mgr.timer h = some t ∧ (t.recurring = false → n = 0)
  cb : ∀ h t k, s.mgr.timer h = some t → t.cb = some k → s.given h = some k
  taken : ∀ j ∈ allJobs s.sys.hist.taken, s.given j.cb.1 = some j.cb.2

/-! ## What a batch adds -/

omit [DecidableEq η] in
theorem map_cb_jobs (n : Nat) (cbs : List (Option (η × κ))) :
    (jobs n cbs).reduceOption.map Job.cb = cbs.reduceOption := by
  have hgen : ∀ k, ((cbs.zipIdx k).map fun c => c.1.map (Job.mk n c.2)).reduceOption.map Job.cb =
      cbs.reduceOption := by
    induction cbs with
    | nil => intro k; rfl
    | cons cb cbs ih =>
      intro k
      have ih := ih (k + 1)
      cases cb with
      | none => simpa [reduceOption_cons] using ih
      | some cb => simpa [reduceOption_cons] using ih
  exact hgen 0

omit [DecidableEq η] in
/-- The timers whose callbacks go on: those that have one. -/
theorem map_fst_bound (l : List η) (f : η → Option κ) :
    (bound (l.map fun h => (h, f h))).reduceOption.map Prod.fst = l.filter fun h => (f h).isSome := by
  induction l with
  | nil => rfl
  | cons h l ih =>
    have ih : (bound (l.map fun h => (h, f h))).reduceOption.map Prod.fst = _ := ih
    cases hf : f h with
    | none => simpa [bound, reduceOption_cons, hf] using ih
    | some k => simpa [bound, reduceOption_cons, hf] using ih

omit [DecidableEq η] in
theorem mem_bound {l : List η} {f : η → Option κ} {c : η × κ}
    (hc : c ∈ (bound (l.map fun h => (h, f h))).reduceOption) : f c.1 = some c.2 := by
  rw [List.reduceOption_mem_iff, bound, List.map_map, List.mem_map] at hc
  obtain ⟨h, -, heq⟩ := hc
  obtain ⟨k, hk, rfl⟩ := Option.map_eq_some_iff.mp heq
  exact hk

section Steps

variable [DecidableEq ι] [LinearOrder A] {blocks : Multiset MsgPtr} {s s' : ProtocolStack ι η A κ}

/-- A step of the threads. -/
theorem Inv.msg_step (inv : Inv blocks s) {act : Act ι (η × κ)} (hother : ∀ cbs, act ≠ .expire cbs)
    {sys : Sys ι (η × κ)} (hnext : s.sys.next act = some sys) : Inv blocks { s with sys := sys } := by
  obtain ⟨lost, hmsg⟩ := inv.msg
  obtain ⟨t, ht, hmsg'⟩ := hmsg.step act
  obtain ⟨u, hu, hline, -, htaken⟩ := hmsg.line_step act
  rw [hnext] at ht hu
  cases ht
  cases hu
  have hfresh : s.sys.fresh act = [] := by
    cases act with
    | expire cbs => exact absurd rfl (hother cbs)
    | put netif buf => rfl
    | netifIn netif => rfl
    | call k => rfl
    | timer => rfl
    | work => rfl
  rw [hfresh, List.append_nil] at hline htaken
  have hcollected : ∀ h, ({ s with sys := sys } : ProtocolStack ι η A κ).collected h = s.collected h := by
    intro h
    simp only [ProtocolStack.collected, htaken]
  refine ⟨inv.ok, ⟨_, hmsg'⟩, ?_, ?_, ?_, ?_, inv.cb, ?_⟩
  · rw [htaken]
    exact hline.trans inv.line
  · intro h hnew
    rw [hcollected]
    exact inv.new h hnew
  · intro h t ht hr
    rw [hcollected]
    exact inv.once h t ht hr
  · intro h n hn
    rw [hcollected]
    exact inv.stopped h n hn
  · intro j hj
    rw [htaken] at hj
    exact inv.taken j hj

omit [DecidableEq ι] [LinearOrder A] in
theorem record_given {op : Op η A κ} {h : η}
    (hother : ∀ addr ms cb recurring, op ≠ .addTimer h addr ms cb recurring) (o : Outcome η κ) :
    (s.record op o).given h = s.given h := by
  unfold ProtocolStack.record
  split
  · next _ k addr ms cb recurring =>
    have hk : h ≠ k := fun heq => hother addr ms cb recurring (by rw [heq])
    exact Function.update_of_ne hk _ _
  · rfl
  · rfl

omit [DecidableEq ι] [LinearOrder A] in
theorem record_cancelled {op : Op η A κ} {o : Outcome η κ} {h : η}
    (hother : ∀ notified, op = .cancel h → o ≠ .returned true notified) :
    (s.record op o).cancelled h = s.cancelled h := by
  unfold ProtocolStack.record
  split
  · rfl
  · next k notified =>
    have hk : h ≠ k := fun heq => hother notified (by rw [heq]) rfl
    exact Function.update_of_ne hk _ _
  · rfl

omit [DecidableEq ι] [LinearOrder A] in
theorem record_sys (s : ProtocolStack ι η A κ) (op : Op η A κ) (o : Outcome η κ) :
    (s.record op o).sys = s.sys := by
  unfold ProtocolStack.record
  split
  · rfl
  · rfl
  · rfl

omit [DecidableEq ι] in
/-- A call of the manager. -/
theorem Inv.manager_step (inv : Inv blocks s) {now : UInt64} {op : Op η A κ} {o : Outcome η κ}
    {mgr : TimerManager η A κ} (hother : ∀ probe, op ≠ .listExpiredCb probe)
    (happly : s.mgr.apply now op = some (o, mgr)) : Inv blocks { s.record op o with mgr := mgr } := by
  have heffect := Timers.apply_effect inv.ok happly
  have hchange := change_of_effect inv.ok hother heffect
  have hsys := record_sys s op o
  have hcollected : ∀ h, ({ s.record op o with mgr := mgr } : ProtocolStack ι η A κ).collected h =
      s.collected h := by
    intro h
    simp only [ProtocolStack.collected, hsys]
  refine ⟨inv.ok.effect heffect, by rw [hsys]; exact inv.msg, by rw [hsys]; exact inv.line,
    fun h hnew => ?_, fun h t ht hr => ?_, fun h n hn => ?_, fun h t k ht hk => ?_, fun j hj => ?_⟩
  · rw [hcollected]
    change mgr.timer h = none at hnew
    change _ ∧ (s.record op o).cancelled h = none
    cases hchange h with
    | none timer mem other other' =>
      rw [record_cancelled other']
      exact inv.new h (timer ▸ hnew)
    | created new timer hop => simp [timer] at hnew
    | moved is mem timer cb recurring other other' => simp [timer] at hnew
    | cancelled is mem timer out hop houtcome => simp [timer] at hnew
  · rw [hcollected]
    change mgr.timer h = some t at ht
    change _ ∧ (h ∈ mgr.timers → _)
    cases hchange h with
    | none timer mem other other' =>
      rw [mem]
      exact inv.once h t (timer ▸ ht) hr
    | created new timer hop =>
      rw [(inv.new h new).1]
      exact ⟨Nat.zero_le 1, fun _ => rfl⟩
    | @moved u u' is mem timer cb recurring other other' =>
      rw [timer] at ht
      cases ht
      obtain ⟨hle, hzero⟩ := inv.once h u is (recurring ▸ hr)
      exact ⟨hle, fun _ => hzero mem⟩
    | @cancelled u notified is mem timer out hop houtcome =>
      rw [timer] at ht
      cases ht
      exact ⟨(inv.once h u is hr).1, fun hin => absurd hin out⟩
  · rw [hcollected]
    change (s.record op o).cancelled h = some n at hn
    change _ ∧ h ∉ mgr.timers ∧ ∃ t, mgr.timer h = some t ∧ _
    cases hchange h with
    | none timer mem other other' =>
      rw [record_cancelled other'] at hn
      rw [timer, mem]
      exact inv.stopped h n hn
    | created new timer hop =>
      have hkeep : (s.record op o).cancelled h = s.cancelled h := by
        rw [hop]
        exact record_cancelled nofun
      rw [hkeep, (inv.new h new).2] at hn
      cases hn
    | @moved u u' is mem timer cb recurring other other' =>
      rw [record_cancelled fun _ heq => absurd heq other'] at hn
      exact absurd mem (inv.stopped h n hn).2.1
    | @cancelled u notified is mem timer out hop houtcome =>
      subst hop houtcome
      have hnow : (s.record (.cancel h) (.returned true notified)).cancelled h =
          some (s.collected h) := Function.update_self ..
      rw [hnow] at hn
      cases hn
      exact ⟨rfl, out, _, timer, fun hr => (inv.once h u is hr).2 mem⟩
  · change mgr.timer h = some t at ht
    change (s.record op o).given h = some k
    cases hchange h with
    | none timer mem other other' =>
      rw [record_given other]
      exact inv.cb h t k (timer ▸ ht) hk
    | @created addr ms cb recurring new timer hop =>
      subst hop
      rw [timer] at ht
      cases ht
      have hnow : (s.record (.addTimer h addr ms cb recurring) o).given h = cb :=
        Function.update_self ..
      rw [hnow]
      exact hk
    | @moved u u' is mem timer cb recurring other other' =>
      rw [timer] at ht
      cases ht
      rw [record_given other]
      exact inv.cb h u k is (cb ▸ hk)
    | cancelled is mem timer out hop houtcome =>
      rw [timer] at ht
      cases ht
      cases hk
  · rw [hsys] at hj
    change (s.record op o).given j.cb.1 = some j.cb.2
    have hgiven := inv.taken j hj
    cases hchange j.cb.1 with
    | none timer mem other other' => rw [record_given other, hgiven]
    | created new timer hop =>
      -- a timer that is new has not been collected
      have hzero := (inv.new j.cb.1 new).1
      have hin : j.cb.1 ∈ (allJobs s.sys.hist.taken).map fun j => j.cb.1 := List.mem_map_of_mem hj
      exact absurd hzero (List.count_pos_iff.mpr hin).ne'
    | moved is mem timer cb recurring other other' => rw [record_given other, hgiven]
    | cancelled is mem timer out hop houtcome => rw [hop, record_given nofun, hgiven]

/-- The timer thread collects what is due: each of those timers once. -/
theorem Inv.expire_step (inv : Inv blocks s) (hidle : s.sys.timer = .idle) {now : UInt64} {probe : A}
    {cbs : List (η × Option κ)} {mgr : TimerManager η A κ}
    (happly : s.mgr.apply now (.listExpiredCb probe) = some (.collected cbs, mgr))
    {sys : Sys ι (η × κ)} (hnext : s.sys.next (.expire (bound cbs)) = some sys) :
    Inv blocks { s with mgr := mgr, sys := sys } := by
  have heffect := Timers.apply_effect inv.ok happly
  obtain ⟨hcbs, htimer⟩ : (cbs = (s.mgr.timers.filter (s.mgr.due now)).map fun h =>
      (h, (s.mgr.timer h).bind Timer.cb)) ∧ ∀ h,
      if h ∈ s.mgr.timers.filter (s.mgr.due now) then
        ∃ t, s.mgr.timer h = some t ∧ mgr.timer h = some (t.fired now) ∧
          (h ∈ mgr.timers ↔ t.recurring = true)
      else mgr.timer h = s.mgr.timer h ∧ (h ∈ mgr.timers ↔ h ∈ s.mgr.timers) := by
    cases heffect with
    | expired fired => exact ⟨rfl, expired_timer inv.ok fired⟩
  obtain ⟨lost, hmsg⟩ := inv.msg
  obtain ⟨t, ht, hmsg'⟩ := hmsg.step (.expire (bound cbs))
  obtain ⟨u, hu, hline, -, htaken⟩ := hmsg.line_step (.expire (bound cbs))
  rw [hnext] at ht hu
  cases ht
  cases hu
  have hfresh : s.sys.fresh (.expire (bound cbs)) =
      (jobs s.sys.hist.taken.length (bound cbs)).reduceOption := by
    simp only [Sys.fresh, hidle]
  have htimers : (s.sys.fresh (.expire (bound cbs))).map (fun j => j.cb.1) =
      (s.mgr.timers.filter (s.mgr.due now)).filter fun h =>
        ((s.mgr.timer h).bind Timer.cb).isSome := by
    have hmap := congrArg (List.map Prod.fst) (map_cb_jobs s.sys.hist.taken.length (bound cbs))
    rw [List.map_map, hcbs, map_fst_bound] at hmap
    rw [hfresh, hcbs]
    exact hmap
  have hfrom : ∀ j ∈ s.sys.fresh (.expire (bound cbs)), s.given j.cb.1 = some j.cb.2 := by
    intro j hj
    have hin : j.cb ∈ (bound cbs).reduceOption := by
      rw [← map_cb_jobs s.sys.hist.taken.length, ← hfresh]
      exact List.mem_map_of_mem hj
    rw [hcbs] at hin
    obtain ⟨t, ht, hk⟩ := Option.bind_eq_some_iff.mp
      (mem_bound (f := fun h => (s.mgr.timer h).bind Timer.cb) hin)
    exact inv.cb j.cb.1 t j.cb.2 ht hk
  have hcollected : ∀ h, ({ s with mgr := mgr, sys := sys } : ProtocolStack ι η A κ).collected h =
      s.collected h + ((s.mgr.timers.filter (s.mgr.due now)).filter fun h =>
        ((s.mgr.timer h).bind Timer.cb).isSome).count h := by
    intro h
    simp only [ProtocolStack.collected, htaken, List.map_append, List.count_append, htimers]
  -- a timer that is not due is not collected
  have hsame : ∀ h, h ∉ s.mgr.timers.filter (s.mgr.due now) →
      ({ s with mgr := mgr, sys := sys } : ProtocolStack ι η A κ).collected h = s.collected h := by
    intro h hout
    rw [hcollected, List.count_eq_zero_of_not_mem fun hin => hout (List.mem_of_mem_filter hin),
      Nat.add_zero]
  have honce : ∀ h, ({ s with mgr := mgr, sys := sys } : ProtocolStack ι η A κ).collected h ≤
      s.collected h + 1 := by
    intro h
    rw [hcollected]
    exact Nat.add_le_add_left
      (List.nodup_iff_count_le_one.mp ((inv.ok.distinct.nodup.filter _).filter _) h) _
  refine ⟨inv.ok.effect heffect, ⟨_, hmsg'⟩, ?_, fun h hnew => ?_, fun h t ht hr => ?_, fun h n hn => ?_,
    fun h t k ht hk => ?_, fun j hj => ?_⟩
  · rw [htaken]
    exact hline.trans (inv.line.append_right _)
  · have hcase := htimer h
    change mgr.timer h = none at hnew
    split at hcase
    · obtain ⟨t, -, ht, -⟩ := hcase
      rw [hnew] at ht
      cases ht
    · next hdue =>
      rw [hsame h hdue]
      exact inv.new h (hcase.1 ▸ hnew)
  · have hcase := htimer h
    change mgr.timer h = some t at ht
    split at hcase
    · obtain ⟨u, hu, hfired, hback⟩ := hcase
      rw [hfired] at ht
      cases ht
      -- it was in the set, so this is the first time
      have hru : u.recurring = false := by
        cases hrec : u.recurring with
        | false => rfl
        | true => simp [Timer.fired, hrec] at hr
      have hzero := (inv.once h u hu hru).2 (List.mem_of_mem_filter ‹_›)
      refine ⟨by simpa [hzero] using honce h, fun hin => ?_⟩
      rw [hback, hru] at hin
      cases hin
    · next hdue =>
      rw [hsame h hdue]
      obtain ⟨hle, hzero⟩ := inv.once h t (hcase.1 ▸ ht) hr
      exact ⟨hle, fun hin => hzero (hcase.2.mp hin)⟩
  · obtain ⟨heq, hout, t, ht, hzero⟩ := inv.stopped h n hn
    have hdue : h ∉ s.mgr.timers.filter (s.mgr.due now) := fun hin => hout (List.mem_of_mem_filter hin)
    have hcase := htimer h
    rw [if_neg hdue] at hcase
    rw [hsame h hdue]
    exact ⟨heq, fun hin => hout (hcase.2.mp hin), t, hcase.1.trans ht, hzero⟩
  · have hcase := htimer h
    change mgr.timer h = some t at ht
    split at hcase
    · obtain ⟨u, hu, hfired, -⟩ := hcase
      rw [hfired] at ht
      cases ht
      refine inv.cb h u k hu ?_
      cases hrec : u.recurring with
      | true => simpa [Timer.fired, hrec] using hk
      | false => simp [Timer.fired, hrec] at hk
    · exact inv.cb h t k (hcase.1 ▸ ht) hk
  · rw [htaken] at hj
    rcases List.mem_append.mp hj with hj | hj
    · exact inv.taken j hj
    · exact hfrom j hj

theorem step_manager {now : UInt64} {op : Op η A κ} (hstep : s.step (.manager now op) = some s') :
    (∀ probe, op ≠ .listExpiredCb probe) ∧ ∃ o mgr, s.mgr.apply now op = some (o, mgr) ∧
      s' = { s.record op o with mgr := mgr } := by
  have hother : ∀ probe, op ≠ .listExpiredCb probe := by
    rintro probe rfl
    cases hstep
  have heq : s.step (.manager now op) =
      (s.mgr.apply now op).map fun r => { s.record op r.1 with mgr := r.2 } := by
    cases op with
    | listExpiredCb probe => exact absurd rfl (hother probe)
    | addTimer h addr ms cb recurring => rfl
    | cancel h => rfl
    | refresh h => rfl
    | reset h ms fromNow => rfl
    | getNextTime => rfl
  rw [heq] at hstep
  obtain ⟨⟨o, mgr⟩, happly, rfl⟩ := Option.map_eq_some_iff.mp hstep
  exact ⟨hother, o, mgr, happly, rfl⟩

theorem step_msg {act : Act ι (η × κ)} (hstep : s.step (.msg act) = some s') :
    (∀ cbs, act ≠ .expire cbs) ∧ ∃ sys, s.sys.next act = some sys ∧ s' = { s with sys := sys } := by
  have hother : ∀ cbs, act ≠ .expire cbs := by
    rintro cbs rfl
    cases hstep
  have heq : s.step (.msg act) = (s.sys.next act).map fun sys => { s with sys := sys } := by
    cases act with
    | expire cbs => exact absurd rfl (hother cbs)
    | put netif buf => rfl
    | netifIn netif => rfl
    | call k => rfl
    | timer => rfl
    | work => rfl
  rw [heq] at hstep
  obtain ⟨sys, hnext, rfl⟩ := Option.map_eq_some_iff.mp hstep
  exact ⟨hother, sys, hnext, rfl⟩

theorem step_expire {now : UInt64} {probe : A} (hstep : s.step (.expire now probe) = some s') :
    s.sys.timer = .idle ∧ ∃ sys, s.sys.next (.expire (bound (s.mgr.listExpiredCb now probe).1)) = some sys ∧
      s' = { s with mgr := (s.mgr.listExpiredCb now probe).2, sys := sys } := by
  rw [ProtocolStack.step] at hstep
  split at hstep
  · next hidle =>
    obtain ⟨sys, hnext, rfl⟩ := Option.map_eq_some_iff.mp hstep
    exact ⟨hidle, sys, hnext, rfl⟩
  · cases hstep

/-- Every move keeps the invariant. -/
theorem Inv.step (inv : Inv blocks s) {move : Move ι η A κ} (hstep : s.step move = some s') :
    Inv blocks s' := by
  cases move with
  | manager now op =>
    obtain ⟨hother, o, mgr, happly, rfl⟩ := step_manager hstep
    exact inv.manager_step hother happly
  | expire now probe =>
    obtain ⟨hidle, sys, hnext, rfl⟩ := step_expire hstep
    exact inv.expire_step hidle rfl hnext
  | msg act =>
    obtain ⟨hother, sys, hnext, rfl⟩ := step_msg hstep
    exact inv.msg_step hother hnext

/-! ## Whole runs -/

omit [DecidableEq ι] in
theorem Inv.runs_le (inv : Inv blocks s) (h : η) : s.runs h ≤ s.collected h := by
  have hsub : s.sys.hist.ran.Sublist (allJobs s.sys.hist.taken) :=
    (List.sublist_append_left _ _).trans inv.line
  exact (hsub.map fun j => j.cb.1).count_le h

variable {exmsgSize : Int32} {msgQueueSize timerMsgQueueSize netifInQueueSize : UInt32} {mem : MsgPtr → ExMsg ι (η × κ)}
  {sys₀ : Sys ι (η × κ)}

omit [DecidableEq ι] in
theorem create_inv (h : Sys.create exmsgSize msgQueueSize timerMsgQueueSize netifInQueueSize mem = some sys₀)
    (start : UInt64) :
    Inv (sys₀.stock : Multiset MsgPtr) (ProtocolStack.create sys₀ start : ProtocolStack ι η A κ) := by
  have hstart := create_start h
  have htaken : allJobs sys₀.hist.taken = [] := by simp [hstart.hist, allJobs]
  have hline : sys₀.line = [] := by
    simp [Sys.line, Sys.messages, hstart.work, hstart.timer, hstart.msgQueue, hstart.hist, WorkPc.ran,
      TimerPc.funcs]
  refine ⟨Timers.create_setOk start, ⟨0, hstart.inv⟩, ?_, fun k _ => ⟨?_, rfl⟩,
    fun _ t ht => absurd ht (Option.some_ne_none t).symm,
    fun _ n hn => absurd hn (Option.some_ne_none n).symm,
    fun _ t _ ht => absurd ht (Option.some_ne_none t).symm, ?_⟩
  · rw [ProtocolStack.create, hline]
    exact List.nil_sublist _
  · simp [ProtocolStack.collected, ProtocolStack.create, htaken]
  · simp [ProtocolStack.create, htaken]

/-- **What runs for a timer.** In every run of the stack, whatever the threads
and the clock do: a callback that runs is the one its timer was given, a
timer that is not recurring has it run once at most, and a timer whose
`cancel` has returned true at most as often as it had been collected by then,
which is never if it is not recurring. -/
theorem runs_of_timer
    (h : Sys.create exmsgSize msgQueueSize timerMsgQueueSize netifInQueueSize mem = some sys₀) (start : UInt64)
    (moves : List (Move ι η A κ)) {s : ProtocolStack ι η A κ}
    (hrun : run ProtocolStack.step (.create sys₀ start) moves = some s) :
    (∀ j ∈ s.sys.hist.ran, s.given j.cb.1 = some j.cb.2) ∧
      (∀ k t, s.mgr.timer k = some t → t.recurring = false → s.runs k ≤ 1) ∧
      ∀ k n, s.cancelled k = some n → s.runs k ≤ n ∧
        ∃ t, s.mgr.timer k = some t ∧ (t.recurring = false → s.runs k = 0) := by
  have hstep : ∀ (s : ProtocolStack ι η A κ) (move : Move ι η A κ) (s' : ProtocolStack ι η A κ),
      Inv (sys₀.stock : Multiset MsgPtr) s → True → s.step move = some s' →
        Inv (sys₀.stock : Multiset MsgPtr) s' := fun s move s' inv _ hmove => inv.step hmove
  have inv := run_induction hstep moves _ s (create_inv h start)
    (along_of_forall (p := fun _ => True) (fun _ _ => trivial) _) hrun
  refine ⟨fun j hj => ?_, fun k t ht hr => ?_, fun k n hn => ?_⟩
  · have hsub : s.sys.hist.ran.Sublist (allJobs s.sys.hist.taken) :=
      (List.sublist_append_left _ _).trans inv.line
    exact inv.taken j (hsub.subset hj)
  · exact (inv.runs_le k).trans (inv.once k t ht hr).1
  · obtain ⟨heq, -, t, ht, hzero⟩ := inv.stopped k n hn
    have hle := heq ▸ inv.runs_le k
    exact ⟨hle, t, ht, fun hr => Nat.le_zero.mp (hzero hr ▸ hle)⟩

end Steps

/-- Room for a few messages. -/
def start : Sys Nat (Nat × Nat) where
  memBlock := ⟨3, [⟨.main, 0⟩, ⟨.main, 1⟩, ⟨.main, 2⟩]⟩
  timerMemBlock := ⟨3, [⟨.timer, 0⟩, ⟨.timer, 1⟩, ⟨.timer, 2⟩]⟩
  msgQueue := ⟨3, []⟩
  inQ := fun _ => ⟨1, []⟩
  mem := fun _ => .new
  calls := []
  timer := .idle
  work := .idle
  hist := ⟨[], [], []⟩

/-- A timer goes off, another is cancelled before it does, and a recurring one
is cancelled when its callback is on the way. -/
def threeTimers : List (Move Nat Nat Nat Nat) :=
  [.manager 100 (.addTimer 0 8 10 (some 5) false), .manager 100 (.addTimer 1 4 20 (some 6) false),
    .manager 100 (.addTimer 2 12 12 (some 7) true), .expire 112 0, .msg .timer, .msg .timer,
    .manager 113 (.cancel 1), .manager 113 (.cancel 2), .msg .timer, .msg .timer, .msg .timer] ++
    List.replicate 6 (.msg .work) ++ [.expire 140 0]

theorem runs_of_threeTimers :
    ∃ s, run ProtocolStack.step (.create start 0) threeTimers = some s ∧ s.runs 0 ≤ 1 ∧ s.runs 1 = 0 ∧
      s.runs 2 ≤ 1 ∧ s.sys.hist.ran.map Job.cb = [(0, 5), (2, 7)] := by
  have hstate : (run ProtocolStack.step (.create start 0) threeTimers).map
      (fun s => ((s.mgr.timer 0).map Timer.recurring, s.cancelled 1, s.cancelled 2,
        s.sys.hist.ran.map Job.cb)) =
      some (some false, some 0, some 1, [(0, 5), (2, 7)]) := by decide +kernel
  obtain ⟨s, hrun, heq⟩ := Option.map_eq_some_iff.mp hstate
  simp only [Prod.mk.injEq] at heq
  obtain ⟨hzero, hone, htwo, hran⟩ := heq
  obtain ⟨t, ht, hr⟩ := Option.map_eq_some_iff.mp hzero
  obtain ⟨-, honce, hstopped⟩ := runs_of_timer (rfl : Sys.create 40 4 4 2 (fun _ => .new) = some start)
    0 threeTimers hrun
  exact ⟨s, hrun, honce 0 t ht hr, Nat.le_zero.mp (hstopped 1 0 hone).1, (hstopped 2 1 htwo).1, hran⟩

end TinyTcp.Stack
