/-
TinyTcp.Msg.Flush — timer thread and working thread can always send and run
what has been collected.

No block of the timer's pool is ever lost (`timerBlocks_step`): the calls
that lose blocks have none of these. So whenever the working thread is at
rest and the timer thread is between two callbacks, all of them are in
their pool, and the next callback finds a block and an empty queue. Working
off the queue before each step of the timer thread, the two bring every
callback through (`Inv.flushes`).
-/
import TinyTcp.Msg.Callbacks

namespace TinyTcp.Msg

open TinyTcp.Lib TinyTcp.Pkt TinyTcp.Ring

variable {ι κ : Type}

/-! ## The blocks of the timer's pool -/

/-- How many of these blocks are the timer's. -/
def ofTimer (msgs : List MsgPtr) : Nat := msgs.countP (·.pool = .timer)

@[simp] theorem ofTimer_nil : ofTimer [] = 0 := rfl

@[simp] theorem ofTimer_append (xs ys : List MsgPtr) : ofTimer (xs ++ ys) = ofTimer xs + ofTimer ys :=
  List.countP_append

theorem ofTimer_cons (x : MsgPtr) (xs : List MsgPtr) :
    ofTimer (x :: xs) = ofTimer xs + if x.pool = .timer then 1 else 0 := by
  simp [ofTimer, List.countP_cons]

/-- Those in their pool, in the queue, and with the two threads. -/
def Sys.timerBlocks (s : Sys ι κ) : Nat :=
  s.timerMemBlock.items.length + ofTimer s.msgQueue.items + ofTimer s.work.msg.toList +
    ofTimer s.timer.msg.toList

variable [DecidableEq ι] {s s' t : Sys ι κ} {blocks : Multiset MsgPtr} {lost : Nat}

/-- A call has none of them. -/
theorem CallPc.keeps_timerBlocks {others : MsgClaims ι κ} (pc : CallPc ι)
    (h : Ledger blocks s (pc.claims + others)) :
    (pc.step s).1.timerBlocks = s.timerBlocks ∧ (pc.step s).1.msgQueue.cap = s.msgQueue.cap := by
  cases pc with
  | done => exact ⟨rfl, rfl⟩
  | put netif buf =>
    simp only [CallPc.step]
    split
    · exact ⟨rfl, rfl⟩
    · exact ⟨rfl, rfl⟩
  | getMsgBlock netif =>
    simp only [CallPc.step, Sys.getMsgBlock]
    cases s.memBlock.pop with
    | none => exact ⟨rfl, rfl⟩
    | some r => exact ⟨rfl, rfl⟩
  | msgSend netif msg =>
    have hmain : msg.pool = .main := by
      rw [CallPc.claims, Multiset.singleton_add] at h
      exact h.meets.1
    have hstep : ((CallPc.msgSend netif msg).step s).1 = (s.pushMsg msg).2 := rfl
    rw [hstep]
    by_cases hlt : s.msgQueue.items.length < s.msgQueue.cap
    · simp [Sys.pushMsg, Fifo.push_of_room hlt, Sys.timerBlocks, ofTimer_cons, hmain]
    · rw [Sys.pushMsg_full (Nat.le_of_not_lt hlt)]
      exact ⟨rfl, rfl⟩
  | release netif msg =>
    exact ⟨rfl, rfl⟩

omit [DecidableEq ι] in
/-- A block of the timer's pool goes back. -/
theorem Sys.releaseTimerMsgBlock_proper {msg : MsgPtr} (h : s.releaseTimerMsgBlock msg = some t)
    (hproper : ∀ r ∈ t.hist.releases, r.Proper) :
    msg.pool = .timer ∧ t.timerMemBlock.items.length = s.timerMemBlock.items.length + 1 ∧
      t.msgQueue = s.msgQueue := by
  unfold Sys.releaseTimerMsgBlock at h
  obtain ⟨m, -, h⟩ := Option.bind_eq_some_iff.mp h
  cases h
  obtain ⟨hpool, hok⟩ := hproper ⟨.timer, msg, (s.timerMemBlock.push msg).1⟩
    (List.mem_append_right _ (List.mem_singleton_self _))
  have hroom : s.timerMemBlock.items.length < s.timerMemBlock.cap := by
    by_contra hfull
    change (s.timerMemBlock.push msg).1 = true at hok
    rw [Fifo.push_of_full (Nat.le_of_not_lt hfull)] at hok
    cases hok
  refine ⟨hpool.symm, ?_, rfl⟩
  change (s.timerMemBlock.push msg).2.items.length = _
  simp [Fifo.push_of_room hroom]

omit [DecidableEq ι] in
/-- The timer thread takes them from their pool and sends them, or gives them back. -/
theorem TimerPc.keeps_timerBlocks {pc pc' : TimerPc κ} (h : pc.step s = some (t, pc'))
    (hown : ∀ msg ∈ s.timerMemBlock.items, msg.pool = .timer) (hproper : ∀ r ∈ t.hist.releases, r.Proper) :
    t.timerMemBlock.items.length + ofTimer t.msgQueue.items + ofTimer pc'.msg.toList =
        s.timerMemBlock.items.length + ofTimer s.msgQueue.items + ofTimer pc.msg.toList ∧
      t.msgQueue.cap = s.msgQueue.cap := by
  cases pc with
  | idle =>
    cases h
    exact ⟨rfl, rfl⟩
  | batch cbs =>
    cases cbs with
    | nil =>
      cases h
      exact ⟨rfl, rfl⟩
    | cons cb cbs =>
      cases hitems : s.timerMemBlock.items with
      | nil =>
        simp only [TimerPc.step, Sys.getTimerMsgBlock, Fifo.pop, hitems] at h
        cases h
        simp [TimerPc.msg, hitems]
      | cons msg rest =>
        have hpool := hown msg (by rw [hitems]; exact List.mem_cons_self)
        simp only [TimerPc.step, Sys.getTimerMsgBlock, Fifo.pop, hitems] at h
        cases h
        simp [TimerPc.msg, Sys.setMsg, ofTimer_cons, hpool]
        omega
  | pushMsg func msg cbs =>
    by_cases hlt : s.msgQueue.items.length < s.msgQueue.cap
    · simp only [TimerPc.step, Sys.pushMsg, Fifo.push_of_room hlt] at h
      cases h
      simp [TimerPc.msg]
      omega
    · rw [TimerPc.step, Sys.pushMsg_full (Nat.le_of_not_lt hlt)] at h
      cases h
      exact ⟨rfl, rfl⟩
  | release func msg cbs =>
    obtain ⟨u, hu, h⟩ := Option.bind_eq_some_iff.mp h
    cases h
    obtain ⟨hpool, hlen, hqueue⟩ := Sys.releaseTimerMsgBlock_proper hu hproper
    simp [TimerPc.msg, hlen, hqueue, ofTimer_cons, hpool]
    omega

/-- The working thread takes them from the queue and gives them back. -/
theorem WorkPc.keeps_timerBlocks {pc pc' : WorkPc ι κ} (h : pc.step s = some (t, pc'))
    (hproper : ∀ r ∈ t.hist.releases, r.Proper) :
    t.timerMemBlock.items.length + ofTimer t.msgQueue.items + ofTimer pc'.msg.toList =
        s.timerMemBlock.items.length + ofTimer s.msgQueue.items + ofTimer pc.msg.toList ∧
      t.msgQueue.cap = s.msgQueue.cap := by
  cases pc with
  | idle =>
    cases hitems : s.msgQueue.items with
    | nil =>
      simp only [WorkPc.step, Fifo.pop, hitems] at h
      cases h
      simp [WorkPc.msg, hitems]
    | cons msg rest =>
      simp only [WorkPc.step, Fifo.pop, hitems, WorkPc.dispatch] at h
      split at h
      · cases h
        simp [WorkPc.msg, ofTimer_cons]
        omega
      · cases h
        simp [WorkPc.msg, Sys.setMsg, ofTimer_cons]
        omega
      · cases h
  | loop n msg =>
    rw [WorkPc.step] at h
    split at h
    · cases h
      exact ⟨rfl, rfl⟩
    · cases h
      exact ⟨rfl, rfl⟩
  | get n msg =>
    rw [WorkPc.step] at h
    cases hpop : (s.inQ n).pop with
    | none =>
      rw [hpop] at h
      cases h
      exact ⟨rfl, rfl⟩
    | some r =>
      rw [hpop] at h
      cases h
      exact ⟨rfl, rfl⟩
  | run func msg =>
    cases h
    exact ⟨rfl, rfl⟩
  | release msg =>
    rw [WorkPc.step] at h
    split at h
    · obtain ⟨u, hu, h⟩ := Option.bind_eq_some_iff.mp h
      cases h
      obtain ⟨hpool, hlen, hqueue⟩ := Sys.releaseTimerMsgBlock_proper hu hproper
      simp [WorkPc.msg, hlen, hqueue, ofTimer_cons, hpool]
      omega
    · cases h
      have hmain : msg.pool = .main :=
        (hproper ⟨.main, msg, (s.memBlock.push msg).1⟩
          (List.mem_append_right _ (List.mem_singleton_self _))).1.symm
      simp [WorkPc.msg, Sys.releaseMsgBlock, ofTimer_cons, hmain]

/-- **None of them is ever lost**, and the queue keeps its size. -/
theorem Inv.timerBlocks_step (h : Inv blocks s lost) {a : Act ι κ} (hnext : s.next a = some s') :
    s'.timerBlocks = s.timerBlocks ∧ s'.msgQueue.cap = s.msgQueue.cap := by
  obtain ⟨u, hu, hinv'⟩ := h.step a
  rw [hnext] at hu
  cases hu
  cases a with
  | put netif buf =>
    cases hnext
    exact ⟨rfl, rfl⟩
  | netifIn netif =>
    cases hnext
    exact ⟨rfl, rfl⟩
  | call k =>
    cases hk : s.calls[k]? with
    | none =>
      rw [Sys.next, hk] at hnext
      cases hnext
      exact ⟨rfl, rfl⟩
    | some pc =>
      rw [Sys.next, hk] at hnext
      cases hnext
      obtain ⟨rest, gone, -, hledger, -⟩ := h.ledger_call hk
      exact pc.keeps_timerBlocks hledger
  | expire cbs =>
    cases htimer : s.timer with
    | idle =>
      rw [Sys.next, htimer] at hnext
      cases hnext
      simp [Sys.timerBlocks, Sys.take, TimerPc.msg, htimer]
    | batch cbs' =>
      rw [Sys.next, htimer] at hnext
      cases hnext
      exact ⟨rfl, rfl⟩
    | pushMsg func msg cbs' =>
      rw [Sys.next, htimer] at hnext
      cases hnext
      exact ⟨rfl, rfl⟩
    | release func msg cbs' =>
      rw [Sys.next, htimer] at hnext
      cases hnext
      exact ⟨rfl, rfl⟩
  | timer =>
    obtain ⟨⟨t, pc⟩, hstep, hnext⟩ := Option.bind_eq_some_iff.mp hnext
    cases hnext
    obtain ⟨gone, -, hledger⟩ := h.ledger_timer
    obtain ⟨u, pc', heq, hmoved, -⟩ := TimerPc.moved s.timer hledger
    rw [hstep] at heq
    cases heq
    obtain ⟨hcount, hcap⟩ := TimerPc.keeps_timerBlocks hstep (h.own .timer) hinv'.releases
    refine ⟨?_, hcap⟩
    change t.timerMemBlock.items.length + ofTimer t.msgQueue.items + ofTimer t.work.msg.toList +
      ofTimer pc.msg.toList = _
    rw [hmoved.frame.2.2, Sys.timerBlocks]
    omega
  | work =>
    obtain ⟨⟨t, pc⟩, hstep, hnext⟩ := Option.bind_eq_some_iff.mp hnext
    cases hnext
    obtain ⟨gone, -, hledger⟩ := h.ledger_work
    obtain ⟨u, pc', heq, hmoved, -⟩ := WorkPc.moved s.work hledger
    rw [hstep] at heq
    cases heq
    obtain ⟨hcount, hcap⟩ := WorkPc.keeps_timerBlocks hstep hinv'.releases
    refine ⟨?_, hcap⟩
    change t.timerMemBlock.items.length + ofTimer t.msgQueue.items + ofTimer pc.msg.toList +
      ofTimer t.timer.msg.toList = _
    rw [hmoved.frame.2.1, Sys.timerBlocks]
    omega

theorem Inv.timerBlocks_run (h : Inv blocks s lost) {acts : List (Act ι κ)}
    (hrun : run Sys.next s acts = some t) :
    t.timerBlocks = s.timerBlocks ∧ t.msgQueue.cap = s.msgQueue.cap := by
  have hstep : ∀ (r : Sys ι κ) (a : Act ι κ) (r' : Sys ι κ),
      (∃ lost, Inv blocks r lost) ∧ r.timerBlocks = s.timerBlocks ∧ r.msgQueue.cap = s.msgQueue.cap →
        True → r.next a = some r' →
      (∃ lost, Inv blocks r' lost) ∧ r'.timerBlocks = s.timerBlocks ∧ r'.msgQueue.cap = s.msgQueue.cap := by
    rintro r a r' ⟨⟨lost, hinv⟩, hblocks, hcap⟩ - hnext
    obtain ⟨u, hu, hinv'⟩ := hinv.step a
    rw [hnext] at hu
    cases hu
    obtain ⟨hblocks', hcap'⟩ := hinv.timerBlocks_step hnext
    exact ⟨⟨_, hinv'⟩, hblocks'.trans hblocks, hcap'.trans hcap⟩
  exact (run_induction hstep acts s t ⟨⟨_, h⟩, rfl, rfl⟩
    (along_of_forall (p := fun _ => True) (fun _ _ => trivial) s) hrun).2

/-! ## Bringing everything through -/

/-- The steps the timer thread has at most to take for its batch. -/
def TimerPc.left : TimerPc κ → Nat
  | .idle => 0
  | .batch cbs => 3 * cbs.length + 1
  | .pushMsg _ _ cbs => 3 * cbs.length + 3
  | .release _ _ cbs => 3 * cbs.length + 2

omit [DecidableEq ι] in
theorem TimerPc.step_left {pc pc' : TimerPc κ} (h : pc.step s = some (t, pc')) (hbusy : pc ≠ .idle) :
    pc'.left < pc.left := by
  cases pc with
  | idle => exact absurd rfl hbusy
  | batch cbs =>
    cases cbs with
    | nil =>
      cases h
      simp [left]
    | cons cb cbs =>
      simp only [TimerPc.step] at h
      split at h
      · cases h
        simp only [left, List.length_cons]
        omega
      · cases h
        simp only [left, List.length_cons]
        omega
  | pushMsg func msg cbs =>
    simp only [TimerPc.step] at h
    split at h
    · cases h
      simp only [left]
      omega
    · cases h
      simp only [left]
      omega
  | release func msg cbs =>
    obtain ⟨u, -, h⟩ := Option.bind_eq_some_iff.mp h
    cases h
    simp only [left]
    omega

omit [DecidableEq ι] in
/-- At rest there is a block for the next callback, and room in the queue. -/
theorem Sys.AtRest.drops_timer (hrest : s.AtRest) (hblocks : 0 < s.timerBlocks)
    (hcap : 0 < s.msgQueue.cap) : s.drops .timer = false := by
  obtain ⟨hwork, hqueue⟩ := hrest
  rw [Sys.drops]
  cases htimer : s.timer with
  | idle => rfl
  | batch cbs =>
    cases cbs with
    | nil => rfl
    | cons cb cbs =>
      have hitems : s.timerMemBlock.items ≠ [] := by
        rintro hnil
        simp [Sys.timerBlocks, hwork, hqueue, htimer, hnil, WorkPc.msg, TimerPc.msg] at hblocks
      simp [TimerPc.drops, hitems]
  | pushMsg func msg cbs => simp [TimerPc.drops, hqueue, Nat.ne_of_gt hcap]
  | release func msg cbs => rfl

/-- **Every callback that was collected can run**: from any state, timer thread
and working thread have steps that bring all of them through, in order. -/
theorem Inv.flushes (h : Inv blocks s lost) (hblocks : 0 < s.timerBlocks) (hcap : 0 < s.msgQueue.cap) :
    ∃ acts : List (Act ι κ), (∀ a ∈ acts, a = .timer ∨ a = .work) ∧ ∃ t,
      run Sys.next s acts = some t ∧ Inv blocks t lost ∧ t.timer = .idle ∧ t.AtRest ∧
        t.hist.ran = s.line := by
  induction hleft : s.timer.left using Nat.strongRecOn generalizing s with
  | ind m ih =>
    obtain ⟨n, -, u, hwork, hinv, hemptied, hrest⟩ := h.drains
    obtain ⟨-, htimer, -⟩ := hemptied.frame
    obtain ⟨hblocks', hcap'⟩ := h.timerBlocks_run hwork
    have hline : u.line = s.line := by
      rw [Sys.line_eq, Sys.line_eq, hemptied.due, htimer]
    by_cases hidle : u.timer = .idle
    · refine ⟨List.replicate n .work, fun a ha => Or.inr (List.eq_of_mem_replicate ha), u, hwork, hinv,
        hidle, hrest, ?_⟩
      rw [← hline, Sys.line_eq, hrest.due, hidle, TimerPc.funcs, List.append_nil]
    · obtain ⟨r, hnext, hinv'⟩ := hinv.step .timer
      obtain ⟨r', hnext', hsub, hlength, -⟩ := hinv.line_step .timer
      rw [hnext] at hnext'
      cases hnext'
      have hsame : r.line = u.line := by
        rw [hrest.drops_timer (hblocks' ▸ hblocks) (hcap' ▸ hcap)] at hlength
        simpa [Sys.fresh] using hsub.eq_of_length hlength
      obtain ⟨hblocks'', hcap''⟩ := hinv.timerBlocks_step hnext
      obtain ⟨⟨v, pc⟩, hstep, hr⟩ := Option.bind_eq_some_iff.mp hnext
      have hlt : r.timer.left < m := by
        cases hr
        rw [← hleft, ← htimer]
        exact TimerPc.step_left hstep hidle
      obtain ⟨acts, hacts, t, hrun, ht, hidle', hrest', hran⟩ :=
        ih _ hlt hinv' (by rw [hblocks'', hblocks']; exact hblocks) (by rw [hcap'', hcap']; exact hcap) rfl
      refine ⟨List.replicate n .work ++ .timer :: acts, ?_, t, ?_, ht, hidle', hrest', ?_⟩
      · intro a ha
        rcases List.mem_append.mp ha with ha | ha
        · exact Or.inr (List.eq_of_mem_replicate ha)
        · rcases List.mem_cons.mp ha with rfl | ha
          · exact Or.inl rfl
          · exact hacts a ha
      · rw [run_append, hwork, Option.bind_some, run_cons hnext, hrun]
      · rw [hran, hsame, hline]

end TinyTcp.Msg
