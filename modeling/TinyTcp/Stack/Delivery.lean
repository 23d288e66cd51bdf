/-
TinyTcp.Stack.Delivery — a timer that is due can have its callback run.

From any state that the stack gets to, timer thread and working thread have
steps that bring through what is on its way, collect what is due, and bring
that through as well (`due_timers_run`), whatever is in the queues, if the
pool has a block at all. So nothing that callers have done keeps a callback from
running; only the order of steps can, as `TinyTcp.Msg.Callbacks` says.
-/
import TinyTcp.Stack.TimerPath
import TinyTcp.Msg.Flush

namespace TinyTcp.Stack

open TinyTcp.Lib TinyTcp.Msg
open TinyTcp.Timers (Timer TimerManager Effect)

variable {ι η A κ : Type} [DecidableEq η] [DecidableEq ι] [LinearOrder A]

/-- The two threads that need no caller. -/
def Move.Own (now : UInt64) (probe : A) (move : Move ι η A κ) : Prop :=
  move = .msg .timer ∨ move = .msg .work ∨ move = .expire now probe

variable {blocks : Multiset MsgPtr} {s s' : ProtocolStack ι η A κ}

/-- Steps of the two threads of the message path. -/
theorem run_msg {acts : List (Act ι (η × κ))} (hacts : ∀ a ∈ acts, a = .timer ∨ a = .work)
    {sys : Sys ι (η × κ)} (hrun : run Sys.next s.sys acts = some sys) :
    run ProtocolStack.step s (acts.map .msg) = some { s with sys := sys } := by
  induction acts generalizing s with
  | nil =>
    cases hrun
    rfl
  | cons a acts ih =>
    have hstep : s.step (.msg a) = (s.sys.next a).map fun sys => { s with sys := sys } := by
      rcases hacts a List.mem_cons_self with rfl | rfl
      · rfl
      · rfl
    cases hnext : s.sys.next a with
    | none => simp [run, hnext] at hrun
    | some u =>
      rw [hnext, Option.map_some] at hstep
      rw [run_cons hnext] at hrun
      rw [List.map_cons, run_cons hstep]
      exact ih (s := { s with sys := u }) (fun b hb => hacts b (List.mem_cons_of_mem a hb)) hrun

/-- No move loses a block of the timer's pool. -/
theorem Inv.timerBlocks_step (inv : Inv blocks s) {move : Move ι η A κ} (hstep : s.step move = some s') :
    s'.sys.timerBlocks = s.sys.timerBlocks ∧ s'.sys.msgQueue.cap = s.sys.msgQueue.cap := by
  obtain ⟨lost, hmsg⟩ := inv.msg
  cases move with
  | manager now op =>
    obtain ⟨-, o, mgr, -, rfl⟩ := step_manager hstep
    simp [record_sys]
  | expire now probe =>
    obtain ⟨-, sys, hnext, rfl⟩ := step_expire hstep
    exact hmsg.timerBlocks_step hnext
  | msg act =>
    obtain ⟨-, sys, hnext, rfl⟩ := step_msg hstep
    exact hmsg.timerBlocks_step hnext

theorem Inv.run (inv : Inv blocks s) {moves : List (Move ι η A κ)}
    (hrun : run ProtocolStack.step s moves = some s') :
    Inv blocks s' ∧ s'.sys.timerBlocks = s.sys.timerBlocks ∧
      s'.sys.msgQueue.cap = s.sys.msgQueue.cap := by
  have hstep : ∀ (r : ProtocolStack ι η A κ) (move : Move ι η A κ) (r' : ProtocolStack ι η A κ),
      Inv blocks r ∧ r.sys.timerBlocks = s.sys.timerBlocks ∧ r.sys.msgQueue.cap = s.sys.msgQueue.cap →
        True → r.step move = some r' →
      Inv blocks r' ∧ r'.sys.timerBlocks = s.sys.timerBlocks ∧
        r'.sys.msgQueue.cap = s.sys.msgQueue.cap := by
    rintro r move r' ⟨inv, hblocks, hcap⟩ - hmove
    obtain ⟨hblocks', hcap'⟩ := inv.timerBlocks_step hmove
    exact ⟨inv.step hmove, hblocks'.trans hblocks, hcap'.trans hcap⟩
  exact run_induction hstep moves s s' ⟨inv, rfl, rfl⟩
    (along_of_forall (p := fun _ => True) (fun _ _ => trivial) s) hrun

/-- The two threads bring through what is on its way. -/
theorem Inv.flushes (inv : Inv blocks s) (hblocks : 0 < s.sys.timerBlocks)
    (hcap : 0 < s.sys.msgQueue.cap) (now : UInt64) (probe : A) :
    ∃ moves : List (Move ι η A κ), (∀ move ∈ moves, move.Own now probe) ∧ ∃ t,
      Lib.run ProtocolStack.step s moves = some t ∧ t.mgr = s.mgr ∧ t.sys.timer = .idle ∧
        t.sys.AtRest ∧ t.sys.hist.ran = s.sys.line := by
  obtain ⟨lost, hmsg⟩ := inv.msg
  obtain ⟨acts, hacts, sys, hrun, -, hidle, hrest, hran⟩ := hmsg.flushes hblocks hcap
  refine ⟨acts.map .msg, ?_, { s with sys := sys }, run_msg hacts hrun, rfl, hidle, hrest, hran⟩
  intro move hmove
  obtain ⟨a, ha, rfl⟩ := List.mem_map.mp hmove
  rcases hacts a ha with rfl | rfl
  · exact Or.inl rfl
  · exact Or.inr (Or.inl rfl)

/-- What a collection puts on its way: the callbacks of what is due. -/
theorem Inv.expires (inv : Inv blocks s) (hidle : s.sys.timer = .idle) (now : UInt64) (probe : A) :
    ∃ t, s.step (.expire now probe) = some t ∧ t.mgr = (s.mgr.listExpiredCb now probe).2 ∧
      t.sys.line.map Job.cb =
        s.sys.line.map Job.cb ++ (bound (s.mgr.listExpiredCb now probe).1).reduceOption := by
  obtain ⟨lost, hmsg⟩ := inv.msg
  obtain ⟨sys, hnext, hsub, hlength, -⟩ :=
    hmsg.line_step (.expire (bound (s.mgr.listExpiredCb now probe).1))
  refine ⟨{ s with mgr := (s.mgr.listExpiredCb now probe).2, sys := sys }, ?_, rfl, ?_⟩
  · simp [ProtocolStack.step, hidle, hnext]
  · have hline := hsub.eq_of_length hlength
    change sys.line.map Job.cb = _
    rw [hline, List.map_append]
    simp [Sys.fresh, hidle, map_cb_jobs]

/-! ## Timers that are due -/

omit [DecidableEq ι] in
/-- One more run for each timer that is due and has a callback. -/
theorem Inv.runs_of_due (inv : Inv blocks s) {now : UInt64} {probe : A}
    (hran : s'.sys.hist.ran.map Job.cb =
      s.sys.line.map Job.cb ++ (bound (s.mgr.listExpiredCb now probe).1).reduceOption)
    {k : η} (hin : k ∈ s.mgr.timers) (hdue : s.mgr.due now k = true) {timer : Timer A κ}
    (htimer : s.mgr.timer k = some timer) (hcb : timer.cb.isSome = true) : s.runs k < s'.runs k := by
  have hcbs : (s.mgr.listExpiredCb now probe).1 =
      (s.mgr.timers.filter (s.mgr.due now)).map fun h => (h, (s.mgr.timer h).bind Timer.cb) := by
    have heffect : Effect s.mgr now (.listExpiredCb probe) (.collected (s.mgr.listExpiredCb now probe).1)
        (s.mgr.listExpiredCb now probe).2 := Timers.apply_effect inv.ok rfl
    generalize (s.mgr.listExpiredCb now probe).1 = cbs at heffect ⊢
    generalize (s.mgr.listExpiredCb now probe).2 = mgr at heffect
    cases heffect with
    | expired fired => rfl
  have hruns : s'.runs k = (s.sys.line.map fun j => j.cb.1).count k +
      ((s.mgr.timers.filter (s.mgr.due now)).filter fun h =>
        ((s.mgr.timer h).bind Timer.cb).isSome).count k := by
    have hfst := congrArg (List.map Prod.fst) hran
    rw [List.map_append, List.map_map, List.map_map, hcbs, map_fst_bound] at hfst
    have hmap : s'.sys.hist.ran.map (fun j => j.cb.1) = s.sys.line.map (fun j => j.cb.1) ++ _ := hfst
    rw [ProtocolStack.runs, hmap, List.count_append]
  have hle : s.runs k ≤ (s.sys.line.map fun j => j.cb.1).count k :=
    ((List.sublist_append_left _ _).map fun j : Job (η × κ) => j.cb.1).count_le k
  have hpos : 0 < ((s.mgr.timers.filter (s.mgr.due now)).filter fun h =>
      ((s.mgr.timer h).bind Timer.cb).isSome).count k := by
    refine List.count_pos_iff.mpr (List.mem_filter.mpr ⟨List.mem_filter.mpr ⟨hin, hdue⟩, ?_⟩)
    simpa [htimer] using hcb
  omega

variable {exmsgSize : Int32} {msgQueueSize timerMsgQueueSize netifInQueueSize : UInt32} {mem : MsgPtr → ExMsg ι (η × κ)}
  {sys₀ : Sys ι (η × κ)}

/-- **Every timer that is due can have its callback run.** With one block for
the timer thread and one place in the queue, from any state of any run: the
two threads can run what was collected, collect what is due, and run that,
in order and without dropping any of it. -/
theorem due_timers_run
    (h : Sys.create exmsgSize msgQueueSize timerMsgQueueSize netifInQueueSize mem = some sys₀)
    (hblocks : 0 < sys₀.timerMemBlock.items.length) (hcap : 0 < sys₀.msgQueue.cap) (start : UInt64)
    (moves : List (Move ι η A κ)) {s : ProtocolStack ι η A κ}
    (hrun : run ProtocolStack.step (.create sys₀ start) moves = some s) (now : UInt64) (probe : A) :
    ∃ more : List (Move ι η A κ), (∀ move ∈ more, move.Own now probe) ∧ ∃ t,
      run ProtocolStack.step s more = some t ∧ t.mgr = (s.mgr.listExpiredCb now probe).2 ∧
      t.sys.timer = .idle ∧ t.sys.AtRest ∧
      t.sys.hist.ran.map Job.cb =
        s.sys.line.map Job.cb ++ (bound (s.mgr.listExpiredCb now probe).1).reduceOption ∧
      ∀ k ∈ s.mgr.timers, s.mgr.due now k = true → ∀ timer, s.mgr.timer k = some timer →
        timer.cb.isSome = true → s.runs k < t.runs k := by
  have hstart := create_start h
  obtain ⟨inv, hsame, hcapSame⟩ := (create_inv h start).run hrun
  have hblocks : 0 < s.sys.timerBlocks := by
    rw [hsame]
    simpa [ProtocolStack.create, Sys.timerBlocks, hstart.msgQueue, hstart.work, hstart.timer, WorkPc.msg,
      TimerPc.msg] using hblocks
  have hcap : 0 < s.sys.msgQueue.cap := by
    rw [hcapSame]
    exact hcap
  -- what is on its way, then what is due
  obtain ⟨first, hfirst, t, hrunFirst, hmgr, hidle, hrest, hran⟩ := inv.flushes hblocks hcap now probe
  obtain ⟨inv', hsame', hcapSame'⟩ := inv.run hrunFirst
  have hline : t.sys.line = s.sys.line := by
    rw [Sys.line_eq, hrest.due, hidle, TimerPc.funcs, List.append_nil, hran]
  obtain ⟨u, hexpire, hmgr', hline'⟩ := inv'.expires hidle now probe
  obtain ⟨hsame'', hcapSame''⟩ := inv'.timerBlocks_step hexpire
  obtain ⟨last, hlast, v, hrunLast, hmgr'', hidle', hrest', hran'⟩ :=
    (inv'.step hexpire).flushes (by rw [hsame'', hsame']; exact hblocks)
      (by rw [hcapSame'', hcapSame']; exact hcap) now probe
  have hall : v.sys.hist.ran.map Job.cb =
      s.sys.line.map Job.cb ++ (bound (s.mgr.listExpiredCb now probe).1).reduceOption := by
    rw [hran', hline', hline, hmgr]
  refine ⟨first ++ .expire now probe :: last, ?_, v, ?_, ?_, hidle', hrest', hall, ?_⟩
  · intro move hmove
    rcases List.mem_append.mp hmove with hmove | hmove
    · exact hfirst move hmove
    · rcases List.mem_cons.mp hmove with rfl | hmove
      · exact Or.inr (Or.inr rfl)
      · exact hlast move hmove
  · rw [run_append, hrunFirst, Option.bind_some, run_cons hexpire, hrunLast]
  · rw [hmgr'', hmgr', hmgr]
  · intro k hin hdue timer htimer hcb
    exact inv.runs_of_due hall hin hdue htimer hcb

/-- Two callbacks wait in the timer thread when a third timer becomes due. -/
def threeDue : List (Move Nat Nat Nat Nat) :=
  [.manager 100 (.addTimer 0 8 10 (some 5) false), .manager 100 (.addTimer 1 4 20 (some 6) false),
    .manager 100 (.addTimer 2 12 12 (some 7) true), .expire 112 0, .msg .timer]

theorem due_timers_run_threeDue :
    ∃ s, run ProtocolStack.step (.create TinyTcp.Stack.start 0) threeDue = some s ∧ s.runs 1 = 0 ∧
      ∃ more t, run ProtocolStack.step s more = some t ∧
        t.sys.hist.ran.map Job.cb = [(0, 5), (2, 7), (1, 6)] ∧ 0 < t.runs 1 := by
  have hstate : (run ProtocolStack.step (.create TinyTcp.Stack.start 0) threeDue).map
      (fun s => (s.sys.line.map Job.cb, s.runs 1, (bound (s.mgr.listExpiredCb 120 0).1).reduceOption)) =
        some ([(0, 5), (2, 7)], 0, [(1, 6)]) ∧
    (run ProtocolStack.step (.create TinyTcp.Stack.start 0) threeDue).map
      (fun s => (s.mgr.timers, s.mgr.due 120 1, (s.mgr.timer 1).map Timer.cb)) =
        some ([1, 2], true, some (some 6)) := by decide +kernel
  obtain ⟨s, hrun, heq⟩ := Option.map_eq_some_iff.mp hstate.1
  obtain ⟨s', hrun', heq'⟩ := Option.map_eq_some_iff.mp hstate.2
  simp only [Prod.mk.injEq] at heq heq'
  cases hrun.symm.trans hrun'
  obtain ⟨hline, hruns, hfresh⟩ := heq
  obtain ⟨htimers, hdue, htimer⟩ := heq'
  obtain ⟨timer, htimer, hcb⟩ := Option.map_eq_some_iff.mp htimer
  obtain ⟨more, -, t, hmore, -, -, -, hran, hdone⟩ := due_timers_run
    (rfl : Sys.create 40 4 4 2 (fun _ => .new) = some TinyTcp.Stack.start) (by decide) (by decide) 0 threeDue
    hrun 120 0
  refine ⟨s, hrun, hruns, more, t, hmore, by rw [hran, hline, hfresh]; rfl, ?_⟩
  rw [← hruns]
  exact hdone 1 (by simp [htimers]) hdue timer htimer (by simp [hcb])

end TinyTcp.Stack
