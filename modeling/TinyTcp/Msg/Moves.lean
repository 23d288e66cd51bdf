/-
TinyTcp.Msg.Moves — what a step of a thread does to the message blocks.

The `moved` lemmas say it once for each thread: what becomes of its blocks
(`Ledger`), which messages it receives and sends, and which callbacks it
runs. They also say that a step is possible: no member of the union is
read that is not the active one. A call that sends to a full queue loses
its block; nothing else loses one.
-/
import TinyTcp.Msg.Ledger
import Mathlib.Data.List.ReduceOption

namespace TinyTcp.Msg

open TinyTcp.Lib TinyTcp.Pkt TinyTcp.Ring

variable {ι κ : Type}

/-! ## What a thread has -/

def CallPc.claims : CallPc ι → MsgClaims ι κ
  | .msgSend netif msg => {(msg, .netif netif)}
  | .release _ msg => {(msg, .free .main)}
  | _ => 0

def TimerPc.claims : TimerPc κ → MsgClaims ι κ
  | .pushMsg func msg _ => {(msg, .func func)}
  | .release func msg _ => {(msg, .func func)}
  | _ => 0

def WorkPc.claims : WorkPc ι κ → MsgClaims ι κ
  | .idle => 0
  | .loop _ msg => {(msg, .ready)}
  | .get _ msg => {(msg, .ready)}
  | .run _ msg => {(msg, .ready)}
  | .release msg => {(msg, .ready)}

/-! ## What a step does -/

/-- The block is of this pool, and it has gone back. -/
def Release.Proper (r : Release) : Prop := r.pool = r.msg.pool ∧ r.ok = true

/-- A thread that has `has` after the step from `s` to `s'` has lost `cost`
blocks, received and sent these messages, and run these callbacks. -/
structure Moved (blocks : Multiset MsgPtr) (claims : MsgClaims ι κ) (s s' : Sys ι κ)
    (has : MsgClaims ι κ) (cost : Nat) (received sent : List (ExMsg ι κ)) (ran : List (Job κ)) :
    Prop where
  kept : ∃ lost : MsgClaims ι κ, Ledger blocks s' (has + (lost + claims)) ∧ lost.card = cost
  messages : s.messages ++ sent = received ++ s'.messages
  taken : s'.hist.taken = s.hist.taken
  ran : s'.hist.ran = s.hist.ran ++ ran
  releases : ∀ r ∈ s'.hist.releases, r ∈ s.hist.releases ∨ r.Proper
  frame : s'.calls = s.calls ∧ s'.timer = s.timer ∧ s'.work = s.work

variable {blocks : Multiset MsgPtr} {s s' : Sys ι κ} {claims has : MsgClaims ι κ} {x : MsgPtr}
  {t : Stage ι κ}

/-- Nothing of it happens. -/
theorem Moved.quiet (h : Ledger blocks s' (has + claims)) (hmessages : s'.messages = s.messages)
    (hhist : s'.hist = s.hist) (hframe : s'.calls = s.calls ∧ s'.timer = s.timer ∧ s'.work = s.work) :
    Moved blocks claims s s' has 0 [] [] [] where
  kept := ⟨0, by rw [zero_add]; exact h, rfl⟩
  messages := by rw [List.append_nil, List.nil_append, hmessages]
  taken := by rw [hhist]
  ran := by rw [hhist, List.append_nil]
  releases := fun r hr => Or.inl (hhist ▸ hr)
  frame := hframe

/-! ## Pools and queue -/

theorem Ledger.releaseMain (h : Ledger blocks s ((x, t) ::ₘ claims)) (hpool : x.pool = .main) :
    Moved blocks claims s (s.releaseMsgBlock x) 0 0 [] [] [] := by
  obtain ⟨hpush, hledger⟩ := h.pushMain hpool
  have heq : s.releaseMsgBlock x = { s with
      memBlock := { s.memBlock with items := s.memBlock.items ++ [x] }
      hist := { s.hist with releases := s.hist.releases ++ [⟨.main, x, true⟩] } } := by
    unfold Sys.releaseMsgBlock
    rw [hpush]
  rw [heq]
  refine ⟨⟨0, ?_, rfl⟩, ?_, rfl, (List.append_nil _).symm, ?_, ⟨rfl, rfl, rfl⟩⟩
  · rw [zero_add, zero_add]
    exact hledger.congr rfl rfl rfl rfl
  · rw [List.append_nil, List.nil_append]
    rfl
  · intro r hr
    rcases List.mem_append.mp hr with hr | hr
    · exact Or.inl hr
    · rw [List.mem_singleton.mp hr]
      exact Or.inr ⟨hpool.symm, rfl⟩

theorem Ledger.releaseTimer (h : Ledger blocks s ((x, t) ::ₘ claims)) {f : Func κ}
    (hmeets : (Stage.func f : Stage ι κ).Meets (x.pool, s.mem x)) :
    ∃ s', s.releaseTimerMsgBlock x = some s' ∧ Moved blocks claims s s' 0 0 [] [] [] := by
  obtain ⟨hpool, hmem⟩ := hmeets
  have hwrite : Ledger blocks (s.setMsg x ⟨.timerFun, .raw⟩) ((x, .free .timer) ::ₘ claims) :=
    h.write hpool
  obtain ⟨hpush, hledger⟩ := hwrite.pushTimer hpool
  refine ⟨{ s.setMsg x ⟨.timerFun, .raw⟩ with
      timerMemBlock := { s.timerMemBlock with items := s.timerMemBlock.items ++ [x] }
      hist := { s.hist with releases := s.hist.releases ++ [⟨.timer, x, true⟩] } },
    ?_, ⟨⟨0, ?_, rfl⟩, ?_, rfl, (List.append_nil _).symm, ?_, ⟨rfl, rfl, rfl⟩⟩⟩
  · unfold Sys.releaseTimerMsgBlock
    rw [hmem]
    change s.timerMemBlock.push x = _ at hpush
    simp only [ExMsg.destroy, hpush]
    rfl
  · rw [zero_add, zero_add]
    exact hledger.congr rfl rfl rfl rfl
  · rw [List.append_nil, List.nil_append]
    exact (h.messages_write _).symm
  · intro r hr
    rcases List.mem_append.mp hr with hr | hr
    · exact Or.inl hr
    · rw [List.mem_singleton.mp hr]
      exact Or.inr ⟨hpool.symm, rfl⟩

/-- A thread sends its message. -/
theorem Ledger.push (h : Ledger blocks s ((x, t) ::ₘ claims))
    (hready : (Stage.ready : Stage ι κ).Meets (x.pool, s.mem x))
    (hroom : s.msgQueue.items.length < s.msgQueue.cap) :
    ∃ s', s.pushMsg x = (.ok, s') ∧ Moved blocks claims s s' 0 0 [] [s.mem x] [] := by
  refine ⟨{ s with msgQueue := { s.msgQueue with items := s.msgQueue.items ++ [x] } }, ?_,
    ⟨⟨0, ?_, rfl⟩, ?_, rfl, (List.append_nil _).symm, fun r hr => Or.inl hr, ⟨rfl, rfl, rfl⟩⟩⟩
  · unfold Sys.pushMsg
    rw [Fifo.push_of_room hroom]
  · rw [zero_add, zero_add]
    exact (h.relax hready).pushMsg
  · change s.msgQueue.items.map s.mem ++ [s.mem x] = [] ++ (s.msgQueue.items ++ [x]).map s.mem
    rw [List.map_append, List.nil_append]
    rfl

/-- On a full queue it is left with it. -/
theorem Sys.pushMsg_full (hfull : s.msgQueue.cap ≤ s.msgQueue.items.length) (msg : MsgPtr) :
    s.pushMsg msg = (.mem, s) := by
  unfold Sys.pushMsg
  rw [Fifo.push_of_full hfull]

/-! ## The three threads -/

/-- The message does not get into the queue. -/
def CallPc.loses (s : Sys ι κ) : CallPc ι → Bool
  | .msgSend _ _ => decide (s.msgQueue.cap ≤ s.msgQueue.items.length)
  | _ => false

def CallPc.sent (s : Sys ι κ) : CallPc ι → List (ExMsg ι κ)
  | .msgSend netif _ =>
      if s.msgQueue.items.length < s.msgQueue.cap then [⟨.netifIn, .netif netif⟩] else []
  | _ => []

def TimerPc.sent (s : Sys ι κ) : TimerPc κ → List (ExMsg ι κ)
  | .pushMsg func _ _ =>
      if s.msgQueue.items.length < s.msgQueue.cap then [⟨.timerFun, .timer func⟩] else []
  | _ => []

def WorkPc.received (s : Sys ι κ) : WorkPc ι κ → List (ExMsg ι κ)
  | .idle => s.messages.take 1
  | _ => []

/-- The callback it is about to run. -/
def WorkPc.ran : WorkPc ι κ → List (Job κ)
  | .run func _ => func.toList
  | _ => []

/-- The callbacks it has still to send. -/
def TimerPc.funcs : TimerPc κ → List (Job κ)
  | .idle => []
  | .batch cbs => cbs.reduceOption
  | .pushMsg func _ cbs => (func :: cbs).reduceOption
  | .release _ _ cbs => cbs.reduceOption

def ExMsg.func (msg : ExMsg ι κ) : Func κ :=
  match msg.data with
  | .timer func => func
  | _ => none

theorem reduceOption_cons {α : Type} (a : Option α) (as : List (Option α)) :
    (a :: as).reduceOption = a.toList ++ as.reduceOption := by
  cases a with
  | none => rw [List.reduceOption_cons_of_none, Option.toList_none, List.nil_append]
  | some a => rw [List.reduceOption_cons_of_some, Option.toList_some, List.singleton_append]

theorem TimerPc.moved (pc : TimerPc κ) (h : Ledger blocks s (pc.claims + claims)) :
    ∃ s' pc', pc.step s = some (s', pc') ∧
      Moved blocks claims s s' pc'.claims 0 [] (pc.sent s) [] ∧
      ((pc.sent s).filterMap ExMsg.func ++ pc'.funcs).Sublist pc.funcs := by
  cases pc with
  | idle => exact ⟨s, .idle, rfl, .quiet h rfl rfl ⟨rfl, rfl, rfl⟩, .refl _⟩
  | batch cbs =>
    cases cbs with
    | nil => exact ⟨s, .idle, rfl, .quiet h rfl rfl ⟨rfl, rfl, rfl⟩, .refl _⟩
    | cons cb cbs =>
      cases hitems : s.timerMemBlock.items with
      | nil =>
        refine ⟨s, .batch cbs, ?_, .quiet h rfl rfl ⟨rfl, rfl, rfl⟩, ?_⟩
        · rw [TimerPc.step, Sys.getTimerMsgBlock, Fifo.pop, hitems]
        · rw [TimerPc.funcs, TimerPc.funcs, reduceOption_cons]
          exact List.sublist_append_right _ _
      | cons msg rest =>
        change Ledger blocks s (0 + claims) at h
        rw [zero_add] at h
        have hpop := h.popTimer hitems
        have hwrite := hpop.write (u := .func cb) (m := ⟨.timerFun, .timer cb⟩) ⟨hpop.meets, rfl⟩
        have hmessages := hpop.messages_write ⟨.timerFun, .timer cb⟩
        rw [← Multiset.singleton_add] at hwrite
        refine ⟨_, .pushMsg cb msg cbs, ?_, .quiet hwrite hmessages rfl ⟨rfl, rfl, rfl⟩, .refl _⟩
        rw [TimerPc.step, Sys.getTimerMsgBlock, Fifo.pop, hitems]
        simp only [Sys.setMsg_setMsg]
  | pushMsg func msg cbs =>
    rw [TimerPc.claims, Multiset.singleton_add] at h
    have hmeets := h.meets
    by_cases hlt : s.msgQueue.items.length < s.msgQueue.cap
    · obtain ⟨s', heq, hmoved⟩ := h.push (Stage.ready_of_func hmeets) hlt
      rw [hmeets.2] at hmoved
      rw [TimerPc.sent, if_pos hlt]
      refine ⟨s', .batch cbs, ?_, hmoved, ?_⟩
      · rw [TimerPc.step, heq]
        rfl
      · rw [TimerPc.funcs, TimerPc.funcs, reduceOption_cons]
        cases func with
        | none => exact .refl _
        | some job => exact .refl _
    · rw [← Multiset.singleton_add] at h
      rw [TimerPc.sent, if_neg hlt]
      refine ⟨s, .release func msg cbs, ?_, .quiet h rfl rfl ⟨rfl, rfl, rfl⟩, ?_⟩
      · rw [TimerPc.step, Sys.pushMsg_full (Nat.le_of_not_lt hlt)]
        rfl
      · rw [TimerPc.funcs, TimerPc.funcs, reduceOption_cons]
        exact List.sublist_append_right _ _
  | release func msg cbs =>
    rw [TimerPc.claims, Multiset.singleton_add] at h
    obtain ⟨s', heq, hmoved⟩ := h.releaseTimer h.meets
    refine ⟨s', .batch cbs, ?_, hmoved, .refl _⟩
    rw [TimerPc.step, heq]
    rfl

/-- The working thread with the message it has received. -/
theorem WorkPc.dispatch_moved {msg : MsgPtr} (h : Ledger blocks s ((msg, .ready) ::ₘ claims)) :
    ∃ s' pc', WorkPc.dispatch s msg = some (s', pc') ∧
      Moved blocks claims s s' pc'.claims 0 [] [] [] ∧ pc'.ran = (s.mem msg).func.toList := by
  obtain ⟨netif, hpool, hm⟩ | ⟨func, hpool, hm⟩ := h.meets
  · refine ⟨s, .loop netif msg, ?_, .quiet h rfl rfl ⟨rfl, rfl, rfl⟩, by rw [hm]; rfl⟩
    rw [WorkPc.dispatch, hm]
  · have hwrite := h.write (u := .ready) (m := ⟨.timerFun, .timer none⟩) (Or.inr ⟨none, hpool, rfl⟩)
    refine ⟨s.setMsg msg ⟨.timerFun, .timer none⟩, .run func msg, ?_,
      .quiet hwrite (h.messages_write _) rfl ⟨rfl, rfl, rfl⟩, by rw [hm]; rfl⟩
    rw [WorkPc.dispatch, hm]

section Steps

variable [DecidableEq ι]

theorem CallPc.moved (pc : CallPc ι) (h : Ledger blocks s (pc.claims + claims)) :
    Moved blocks claims s (pc.step s).1 (pc.step s).2.claims (pc.loses s).toNat [] (pc.sent s) [] := by
  cases pc with
  | done => exact .quiet h rfl rfl ⟨rfl, rfl, rfl⟩
  | put netif buf =>
    cases hpush : (s.inQ netif).push buf with
    | mk ok inQ =>
      cases ok with
      | true =>
        have hstep : CallPc.step s (.put netif buf) = (s.setInQ netif inQ, .getMsgBlock netif) := by
          rw [CallPc.step, hpush]
        rw [hstep]
        exact .quiet (h.congr rfl rfl rfl rfl) rfl rfl ⟨rfl, rfl, rfl⟩
      | false =>
        have hstep : CallPc.step s (.put netif buf) = (s, .done) := by rw [CallPc.step, hpush]
        rw [hstep]
        exact .quiet h rfl rfl ⟨rfl, rfl, rfl⟩
  | getMsgBlock netif =>
    cases hitems : s.memBlock.items with
    | nil =>
      have hstep : CallPc.step s (.getMsgBlock netif) = (s, .done) := by
        rw [CallPc.step, Sys.getMsgBlock, Fifo.pop, hitems]
      rw [hstep]
      exact .quiet h rfl rfl ⟨rfl, rfl, rfl⟩
    | cons msg rest =>
      change Ledger blocks s (0 + claims) at h
      rw [zero_add] at h
      have hpop := h.popMain hitems
      have hstep : CallPc.step s (.getMsgBlock netif) =
          ({ s with memBlock := { s.memBlock with items := rest } }.setMsg msg
            ⟨.netifIn, .netif netif⟩, .msgSend netif msg) := by
        rw [CallPc.step, Sys.getMsgBlock, Fifo.pop, hitems]
      rw [hstep]
      have hwrite := hpop.write (u := .netif netif) (m := ⟨.netifIn, .netif netif⟩)
        ⟨hpop.meets, rfl⟩
      rw [← Multiset.singleton_add] at hwrite
      exact .quiet hwrite (hpop.messages_write _) rfl ⟨rfl, rfl, rfl⟩
  | msgSend netif msg =>
    rw [CallPc.claims, Multiset.singleton_add] at h
    have hmeets := h.meets
    -- `msg_send` says `NET_ERR_OK` in either case
    have hstep : CallPc.step s (.msgSend netif msg) = ((s.pushMsg msg).2, .done) := rfl
    rw [hstep]
    by_cases hlt : s.msgQueue.items.length < s.msgQueue.cap
    · obtain ⟨s', heq, hmoved⟩ := h.push (Stage.ready_of_netif hmeets) hlt
      rw [CallPc.loses, CallPc.sent, if_pos hlt, decide_eq_false (Nat.not_le.mpr hlt), heq]
      rw [hmeets.2] at hmoved
      exact hmoved
    · have hfull := Nat.le_of_not_lt hlt
      rw [CallPc.loses, CallPc.sent, if_neg hlt, decide_eq_true hfull, Sys.pushMsg_full hfull]
      change Moved blocks claims s s 0 1 [] [] []
      refine ⟨⟨{(msg, .lost)}, ?_, rfl⟩, List.append_nil _, rfl, (List.append_nil _).symm,
        fun r hr => Or.inl hr, ⟨rfl, rfl, rfl⟩⟩
      rw [zero_add, Multiset.singleton_add]
      exact h.relax trivial
  | release netif msg =>
    rw [CallPc.claims, Multiset.singleton_add] at h
    exact h.releaseMain h.meets

theorem WorkPc.moved (pc : WorkPc ι κ) (h : Ledger blocks s (pc.claims + claims)) :
    ∃ s' pc', pc.step s = some (s', pc') ∧
      Moved blocks claims s s' pc'.claims 0 (pc.received s) [] pc.ran ∧
      pc'.ran = (pc.received s).filterMap ExMsg.func := by
  cases pc with
  | idle =>
    cases hitems : s.msgQueue.items with
    | nil =>
      rw [WorkPc.received, Sys.messages, hitems]
      refine ⟨s, .idle, ?_, .quiet h rfl rfl ⟨rfl, rfl, rfl⟩, rfl⟩
      rw [WorkPc.step, Fifo.pop, hitems]
    | cons msg rest =>
      rw [WorkPc.claims, zero_add] at h
      obtain ⟨s', pc', heq, hmoved, hran⟩ := WorkPc.dispatch_moved (h.popMsg hitems)
      have hreceived : (WorkPc.idle : WorkPc ι κ).received s = [s.mem msg] := by
        rw [WorkPc.received, Sys.messages, hitems]
        rfl
      rw [hreceived]
      refine ⟨s', pc', ?_, ⟨hmoved.kept, ?_, hmoved.taken, hmoved.ran, hmoved.releases, hmoved.frame⟩, ?_⟩
      · rw [WorkPc.step, Fifo.pop, hitems]
        exact heq
      · have hrest := hmoved.messages
        rw [List.append_nil, List.nil_append] at hrest
        rw [List.append_nil, ← hrest, Sys.messages, hitems]
        rfl
      · rw [hran, List.filterMap_cons]
        cases (s.mem msg).func with
        | none => rfl
        | some job => rfl
  | loop netif msg =>
    by_cases hlen : (s.inQ netif).items.length ≠ 0
    · exact ⟨s, .get netif msg, by rw [WorkPc.step, if_pos hlen], .quiet h rfl rfl ⟨rfl, rfl, rfl⟩, rfl⟩
    · exact ⟨s, .release msg, by rw [WorkPc.step, if_neg hlen], .quiet h rfl rfl ⟨rfl, rfl, rfl⟩, rfl⟩
  | get netif msg =>
    cases hpop : (s.inQ netif).pop with
    | none => exact ⟨s, .release msg, by rw [WorkPc.step, hpop], .quiet h rfl rfl ⟨rfl, rfl, rfl⟩, rfl⟩
    | some popped =>
      exact ⟨s.setInQ netif popped.2, .loop netif msg, by rw [WorkPc.step, hpop],
        .quiet (h.congr rfl rfl rfl rfl) rfl rfl ⟨rfl, rfl, rfl⟩, rfl⟩
  | run func msg =>
    refine ⟨s.runFunc func, .release msg, rfl, ⟨⟨0, ?_, rfl⟩, List.append_nil _, rfl, rfl,
      fun r hr => Or.inl hr, ⟨rfl, rfl, rfl⟩⟩, rfl⟩
    rw [zero_add]
    exact h.congr rfl rfl rfl rfl
  | release msg =>
    rw [WorkPc.claims, Multiset.singleton_add] at h
    obtain ⟨netif, hpool, hm⟩ | ⟨func, hmeets⟩ := h.meets
    · refine ⟨s.releaseMsgBlock msg, .idle, ?_, h.releaseMain hpool, rfl⟩
      rw [WorkPc.step, hm]
    · obtain ⟨s', heq, hmoved⟩ := h.releaseTimer hmeets
      refine ⟨s', .idle, ?_, hmoved, rfl⟩
      rw [WorkPc.step, hmeets.2]
      simp only [heq, Option.bind_eq_bind, Option.bind_some]

end Steps

end TinyTcp.Msg
