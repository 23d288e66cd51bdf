/-
TinyTcp.Msg.Announce — whether a packet in an in-queue is announced.

`put_buf_to_in_queue` queues the packet first and announces it second, and
does not look at what `exmsg_netif_in` returns. When a call ends without
having sent a message, the packet depends on others: an earlier message
that still waits, a run of `do_netif_in` that has not seen the empty queue
yet, or another call for the same interface. `Covered` says of a step that
one of these is there. `announced_iff_covered` is exact: in every state of
a run the packets are announced if and only if every step is covered.
-/
import TinyTcp.Msg.Ownership

namespace TinyTcp.Msg

open TinyTcp.Lib TinyTcp.Pkt TinyTcp.Ring

variable {ι κ : Type}

/-! ## The property and the condition -/

def announcement (netif : ι) : ExMsg ι κ := ⟨.netifIn, .netif netif⟩

section On

variable [DecidableEq ι]

/-- The call is for the interface, and has not returned. -/
def CallPc.on (netif : ι) : CallPc ι → Bool
  | .done => false
  | .put n _ => n = netif
  | .getMsgBlock n => n = netif
  | .msgSend n _ => n = netif
  | .release n _ => n = netif

/-- `do_netif_in` is in progress on the interface. -/
def WorkPc.on (netif : ι) : WorkPc ι κ → Bool
  | .loop n _ => n = netif
  | .get n _ => n = netif
  | _ => false

/-- The call returns in the next step without having sent a message. -/
def CallPc.givesUp (s : Sys ι κ) : CallPc ι → Bool
  | .done => false
  | .put n _ => (s.inQ n).cap ≤ (s.inQ n).items.length
  | .getMsgBlock _ => s.memBlock.items.isEmpty
  | .msgSend _ _ => s.msgQueue.cap ≤ s.msgQueue.items.length
  | .release _ _ => true

namespace Sys

variable (s : Sys ι κ)

/-- Where an in-queue is not empty and nobody is at work on the interface,
a message for it waits. -/
def Announced : Prop :=
  ∀ netif, (s.inQ netif).items ≠ [] → (∀ pc ∈ s.calls, pc.on netif = false) →
    s.work.on netif = false → announcement netif ∈ s.messages

/-- A call that gives up leaves an empty in-queue, a message that waits,
`do_netif_in` at work, or another call on the interface. -/
def Covered (a : Act ι κ) : Prop :=
  match a with
  | .call k => ∀ pc netif, s.calls[k]? = some pc → pc.givesUp s = true → pc.on netif = true →
      (s.inQ netif).items = [] ∨ announcement netif ∈ s.messages ∨ s.work.on netif = true ∨
        ∃ j pc', j ≠ k ∧ s.calls[j]? = some pc' ∧ pc'.on netif = true
  | _ => True

end Sys

end On

/-! ## One step -/

variable {s t : Sys ι κ}

theorem Sys.releaseTimerMsgBlock_inQ {msg : MsgPtr} (h : s.releaseTimerMsgBlock msg = some t) :
    t.inQ = s.inQ := by
  obtain ⟨m, -, h⟩ := Option.bind_eq_some_iff.mp h
  obtain rfl := Option.some.inj h
  rfl

theorem TimerPc.step_inQ {pc pc' : TimerPc κ} (h : pc.step s = some (t, pc')) :
    t.inQ = s.inQ := by
  cases pc with
  | idle =>
    cases h
    rfl
  | batch cbs =>
    cases cbs with
    | nil =>
      cases h
      rfl
    | cons cb cbs =>
      rw [TimerPc.step, Sys.getTimerMsgBlock] at h
      cases hpop : s.timerMemBlock.pop with
      | none =>
        rw [hpop] at h
        cases h
        rfl
      | some popped =>
        rw [hpop] at h
        cases h
        rfl
  | pushMsg func msg cbs =>
    rw [TimerPc.step, Sys.pushMsg] at h
    cases hpush : s.msgQueue.push msg with
    | mk ok msgQueue =>
      rw [hpush] at h
      cases ok with
      | true =>
        cases h
        rfl
      | false =>
        cases h
        rfl
  | release func msg cbs =>
    obtain ⟨s', hrelease, h⟩ := Option.bind_eq_some_iff.mp h
    cases h
    exact Sys.releaseTimerMsgBlock_inQ hrelease

section Steps

variable [DecidableEq ι]

/-- What the working thread is not at work on afterwards, it was not at
work on before, or it has found the in-queue empty. -/
theorem WorkPc.step_off {pc pc' : WorkPc ι κ} (h : pc.step s = some (t, pc')) {netif : ι}
    (hne : (t.inQ netif).items ≠ []) (hoff : pc'.on netif = false) :
    (s.inQ netif).items ≠ [] ∧ pc.on netif = false ∧ announcement netif ∉ pc.received s := by
  cases pc with
  | idle =>
    rw [WorkPc.step] at h
    cases hpop : s.msgQueue.items with
    | nil =>
      rw [Fifo.pop, hpop] at h
      cases h
      refine ⟨hne, rfl, ?_⟩
      rw [WorkPc.received, Sys.messages, hpop]
      exact List.not_mem_nil
    | cons msg rest =>
      rw [Fifo.pop, hpop] at h
      have hreceived : (WorkPc.idle : WorkPc ι κ).received s = [s.mem msg] := by
        rw [WorkPc.received, Sys.messages, hpop]
        rfl
      rw [hreceived, List.mem_singleton]
      simp only [WorkPc.dispatch] at h
      split at h
      · rename_i n htype hdata
        cases h
        refine ⟨hne, rfl, fun heq => ?_⟩
        rw [← heq, announcement, MsgData.netif.injEq] at hdata
        rw [WorkPc.on, hdata, decide_eq_false_iff_not] at hoff
        exact hoff rfl
      · rename_i func htype hdata
        cases h
        refine ⟨hne, rfl, fun heq => ?_⟩
        rw [← heq, announcement] at htype
        cases htype
      · cases h
  | loop n msg =>
    rw [WorkPc.step] at h
    split at h
    · cases h
      exact ⟨hne, hoff, List.not_mem_nil⟩
    · rename_i hlen
      cases h
      refine ⟨hne, decide_eq_false fun heq => ?_, List.not_mem_nil⟩
      rw [Ne, Decidable.not_not, List.length_eq_zero_iff, heq] at hlen
      exact hne hlen
  | get n msg =>
    rw [WorkPc.step] at h
    cases hpop : (s.inQ n).pop with
    | none =>
      rw [hpop] at h
      cases h
      refine ⟨hne, decide_eq_false fun heq => ?_, List.not_mem_nil⟩
      rw [heq, Fifo.pop] at hpop
      split at hpop
      · rename_i hempty
        exact hne hempty
      · cases hpop
    | some popped =>
      rw [hpop] at h
      cases h
      have hn : netif ≠ n := fun heq => by
        rw [WorkPc.on, heq, decide_eq_false_iff_not] at hoff
        exact hoff rfl
      have hinQ : (s.setInQ n popped.2).inQ netif = s.inQ netif := Function.update_of_ne hn _ _
      rw [hinQ] at hne
      exact ⟨hne, hoff, List.not_mem_nil⟩
  | run func msg =>
    cases h
    exact ⟨hne, rfl, List.not_mem_nil⟩
  | release msg =>
    rw [WorkPc.step] at h
    split at h
    · obtain ⟨s', hrelease, h⟩ := Option.bind_eq_some_iff.mp h
      cases h
      rw [Sys.releaseTimerMsgBlock_inQ hrelease] at hne
      exact ⟨hne, rfl, List.not_mem_nil⟩
    · cases h
      exact ⟨hne, rfl, List.not_mem_nil⟩

/-- A call that does not give up stays on its interface until it has sent a message. -/
theorem CallPc.step_on (s : Sys ι κ) {pc : CallPc ι} {netif : ι} (hon : pc.on netif = true)
    (hgo : pc.givesUp s = false) :
    (pc.step s).2.on netif = true ∨ announcement netif ∈ pc.sent s := by
  cases pc with
  | done => cases hon
  | put n buf =>
    rw [CallPc.givesUp, decide_eq_false_iff_not, Nat.not_le] at hgo
    rw [CallPc.step, Fifo.push_of_room hgo]
    exact Or.inl hon
  | getMsgBlock n =>
    rw [CallPc.step, Sys.getMsgBlock, Fifo.pop]
    cases hitems : s.memBlock.items with
    | nil => simp [CallPc.givesUp, hitems] at hgo
    | cons msg rest => exact Or.inl hon
  | msgSend n msg =>
    rw [CallPc.givesUp, decide_eq_false_iff_not, Nat.not_le] at hgo
    rw [CallPc.sent, if_pos hgo, of_decide_eq_true hon]
    exact Or.inr (List.mem_singleton_self _)
  | release n msg => cases hgo

/-- A call that gives up is done, and has changed nothing that matters here. -/
theorem CallPc.step_givesUp {pc : CallPc ι} (hgo : pc.givesUp s = true) :
    (pc.step s).2 = .done ∧ (pc.step s).1.inQ = s.inQ ∧ pc.sent s = [] := by
  cases pc with
  | done => cases hgo
  | put n buf =>
    rw [CallPc.step, Fifo.push_of_full (of_decide_eq_true hgo)]
    exact ⟨rfl, rfl, rfl⟩
  | getMsgBlock n =>
    have hitems : s.memBlock.items = [] := List.isEmpty_iff.mp hgo
    rw [CallPc.step, Sys.getMsgBlock, Fifo.pop, hitems]
    exact ⟨rfl, rfl, rfl⟩
  | msgSend n msg =>
    have hfull : s.msgQueue.cap ≤ s.msgQueue.items.length := of_decide_eq_true hgo
    have hstep : CallPc.step s (.msgSend n msg) = ((s.pushMsg msg).2, .done) := rfl
    rw [hstep, Sys.pushMsg_full hfull, CallPc.sent, if_neg (Nat.not_lt.mpr hfull)]
    exact ⟨rfl, rfl, rfl⟩
  | release n msg => exact ⟨rfl, rfl, rfl⟩

/-- A call touches the in-queue of its own interface only. -/
theorem CallPc.step_inQ (s : Sys ι κ) {pc : CallPc ι} {netif : ι} (hoff : pc.on netif = false) :
    (pc.step s).1.inQ netif = s.inQ netif ∧ (pc.step s).2.on netif = false := by
  cases pc with
  | done => exact ⟨rfl, rfl⟩
  | put n buf =>
    have hn : netif ≠ n := fun heq => by
      rw [CallPc.on, heq, decide_eq_false_iff_not] at hoff
      exact hoff rfl
    rw [CallPc.step]
    cases hpush : (s.inQ n).push buf with
    | mk ok inQ =>
      cases ok with
      | true => exact ⟨Function.update_of_ne hn _ _, hoff⟩
      | false => exact ⟨rfl, rfl⟩
  | getMsgBlock n =>
    rw [CallPc.step, Sys.getMsgBlock]
    cases s.memBlock.pop with
    | none => exact ⟨rfl, rfl⟩
    | some popped => exact ⟨rfl, hoff⟩
  | msgSend n msg =>
    have hstep : CallPc.step s (.msgSend n msg) = ((s.pushMsg msg).2, .done) := rfl
    rw [hstep, Sys.pushMsg]
    cases s.msgQueue.push msg with
    | mk ok msgQueue =>
      cases ok with
      | true => exact ⟨rfl, rfl⟩
      | false => exact ⟨rfl, rfl⟩
  | release n msg => exact ⟨rfl, rfl⟩

/-! ## The system -/

variable {blocks : Multiset MsgPtr} {lost : Nat}

/-- A call begins. -/
theorem Sys.Announced.call_added (h : s.Announced) (pc : CallPc ι) :
    ({ s with calls := s.calls ++ [pc] } : Sys ι κ).Announced :=
  fun netif hne hcalls hwork =>
    h netif hne (fun pc' hpc' => hcalls pc' (List.mem_append_left _ hpc')) hwork

/-- A call takes a step: the packets stay announced exactly if it is covered. -/
theorem announced_call_iff (hinv : Inv blocks s lost) (h : s.Announced) {k : Nat} {pc : CallPc ι}
    (hk : s.calls[k]? = some pc) :
    ({ (pc.step s).1 with calls := s.calls.set k (pc.step s).2 } : Sys ι κ).Announced ↔
      s.Covered (.call k) := by
  obtain ⟨rest, gone, -, hledger, -⟩ := hinv.ledger_call hk
  have hmoved := CallPc.moved pc hledger
  have hmessages : (pc.step s).1.messages = s.messages ++ pc.sent s := hmoved.messages.symm
  have hwork : (pc.step s).1.work = s.work := hmoved.frame.2.2
  have hset : ∀ netif, (∀ pc' ∈ s.calls.set k (pc.step s).2, pc'.on netif = false) ↔
      (pc.step s).2.on netif = false ∧
        ∀ j pc', j ≠ k → s.calls[j]? = some pc' → pc'.on netif = false := by
    intro netif
    have hlt : k < s.calls.length := (List.getElem?_eq_some_iff.mp hk).1
    constructor
    · intro hall
      refine ⟨hall _ (List.mem_set hlt _), fun j pc' hj hpc' => ?_⟩
      refine hall pc' (List.mem_of_getElem? (i := j) ?_)
      rw [List.getElem?_set_ne (Ne.symm hj)]
      exact hpc'
    · rintro ⟨hself, hothers⟩ pc' hpc'
      obtain ⟨j, hj⟩ := List.mem_iff_getElem?.mp hpc'
      by_cases hjk : j = k
      · rw [hjk, List.getElem?_set_self hlt] at hj
        rw [← Option.some.inj hj]
        exact hself
      · rw [List.getElem?_set_ne (Ne.symm hjk)] at hj
        exact hothers j pc' hjk hj
  constructor
  · intro hafter pc' netif hpc' hgo hon
    obtain rfl : pc = pc' := Option.some.inj (hk.symm.trans hpc')
    obtain ⟨hdone, hinQ, hsent⟩ := CallPc.step_givesUp hgo
    by_contra hcovered
    simp only [not_or, not_exists, not_and, Bool.not_eq_true] at hcovered
    obtain ⟨hne, hpending, hoff, hothers⟩ := hcovered
    refine hpending ?_
    have hmem := hafter netif (by rw [← hinQ] at hne; exact hne) ((hset netif).mpr ⟨?_, hothers⟩)
      (by rw [← hwork] at hoff; exact hoff)
    · change announcement netif ∈ (pc.step s).1.messages at hmem
      rw [hmessages, hsent, List.append_nil] at hmem
      exact hmem
    · rw [hdone]
      rfl
  · intro hcovered netif hne hcalls hoff
    change announcement netif ∈ (pc.step s).1.messages
    change (pc.step s).1.work.on netif = false at hoff
    change ((pc.step s).1.inQ netif).items ≠ [] at hne
    obtain ⟨hself, hothers⟩ := (hset netif).mp hcalls
    rw [hwork] at hoff
    rw [hmessages]
    cases hon : pc.on netif with
    | false =>
      -- the call is for another interface
      rw [(CallPc.step_inQ s hon).1] at hne
      refine List.mem_append_left _ (h netif hne (fun pc' hpc' => ?_) hoff)
      obtain ⟨j, hj⟩ := List.mem_iff_getElem?.mp hpc'
      by_cases hjk : j = k
      · rw [hjk, hk] at hj
        rw [← Option.some.inj hj]
        exact hon
      · exact hothers j pc' hjk hj
    | true =>
      cases hgo : pc.givesUp s with
      | false =>
        rcases CallPc.step_on s hon hgo with hstay | hsent
        · rw [hself] at hstay
          cases hstay
        · exact List.mem_append_right _ hsent
      | true =>
        obtain ⟨-, hinQ, -⟩ := CallPc.step_givesUp hgo
        rw [hinQ] at hne
        rcases hcovered pc netif hk hgo hon with hempty | hpending | hat | ⟨j, pc', hj, hpc', hon'⟩
        · exact absurd hempty hne
        · exact List.mem_append_left _ hpending
        · rw [hoff] at hat
          cases hat
        · rw [hothers j pc' hj hpc'] at hon'
          cases hon'

/-- One step of the system. -/
theorem announced_step (hinv : Inv blocks s lost) (h : s.Announced) (a : Act ι κ) :
    ∃ t, s.next a = some t ∧ Inv blocks t (lost + (s.loses a).toNat) ∧
      (t.Announced ↔ s.Covered a) := by
  obtain ⟨t, hnext, hinv'⟩ := hinv.step a
  refine ⟨t, hnext, hinv', ?_⟩
  cases a with
  | put netif buf =>
    cases hnext
    exact iff_of_true (h.call_added _) trivial
  | netifIn netif =>
    cases hnext
    exact iff_of_true (h.call_added _) trivial
  | call k =>
    rw [Sys.next] at hnext
    cases hk : s.calls[k]? with
    | none =>
      rw [hk] at hnext
      cases hnext
      refine iff_of_true h fun pc netif hpc => ?_
      rw [hk] at hpc
      cases hpc
    | some pc =>
      rw [hk] at hnext
      cases hnext
      exact announced_call_iff hinv h hk
  | expire cbs =>
    rw [Sys.next] at hnext
    cases htimer : s.timer with
    | idle =>
      rw [htimer] at hnext
      cases hnext
      exact iff_of_true h trivial
    | batch cbs' =>
      rw [htimer] at hnext
      cases hnext
      exact iff_of_true h trivial
    | pushMsg func msg cbs' =>
      rw [htimer] at hnext
      cases hnext
      exact iff_of_true h trivial
    | release func msg cbs' =>
      rw [htimer] at hnext
      cases hnext
      exact iff_of_true h trivial
  | timer =>
    obtain ⟨gone, -, hledger⟩ := hinv.ledger_timer
    obtain ⟨u, pc, heq, hmoved, -⟩ := TimerPc.moved s.timer hledger
    obtain ⟨hcalls, -, hwork⟩ := hmoved.frame
    rw [Sys.next, heq] at hnext
    cases hnext
    refine iff_of_true (fun netif hne hoff hidle => ?_) trivial
    have hmem := h netif (by rw [← TimerPc.step_inQ heq]; exact hne) (by rw [← hcalls]; exact hoff)
      (by rw [← hwork]; exact hidle)
    change announcement netif ∈ u.messages
    have hmessages : s.messages ++ s.timer.sent s = u.messages := hmoved.messages
    rw [← hmessages]
    exact List.mem_append_left _ hmem
  | work =>
    obtain ⟨gone, -, hledger⟩ := hinv.ledger_work
    obtain ⟨u, pc, heq, hmoved, -⟩ := WorkPc.moved s.work hledger
    obtain ⟨hcalls, -, -⟩ := hmoved.frame
    rw [Sys.next, heq] at hnext
    cases hnext
    refine iff_of_true (fun netif hne hoff hidle => ?_) trivial
    obtain ⟨hne', hidle', hnew⟩ := WorkPc.step_off heq hne hidle
    have hmem := h netif hne' (by rw [← hcalls]; exact hoff) hidle'
    have hmessages := hmoved.messages
    rw [List.append_nil] at hmessages
    rw [hmessages] at hmem
    exact (List.mem_append.mp hmem).resolve_left hnew

/-- **A queued packet is announced exactly as long as every call that ends
without a message is covered**: the packets are announced in every state of
a run if and only if all its steps are covered. -/
theorem announced_iff_covered {exmsgSize : Int32} {msgQueueSize timerMsgQueueSize netifInQueueSize : UInt32}
    {mem : MsgPtr → ExMsg ι κ} {s₀ : Sys ι κ}
    (h : Sys.create exmsgSize msgQueueSize timerMsgQueueSize netifInQueueSize mem = some s₀)
    (acts : List (Act ι κ)) :
    Always Sys.next Sys.Announced s₀ acts ↔ Along Sys.next Sys.Covered s₀ acts := by
  have hstart := create_start h
  have hempty : s₀.Announced := fun netif hne => absurd (hstart.inQ netif) hne
  have hstep : ∀ (s : Sys ι κ) (a : Act ι κ),
      (∃ lost, Inv (s₀.stock : Multiset MsgPtr) s lost) → s.Announced →
      ∃ t, s.next a = some t ∧ (s.Covered a → ∃ lost, Inv (s₀.stock : Multiset MsgPtr) t lost) ∧
        (t.Announced ↔ s.Covered a) := by
    rintro s a ⟨lost, hinv⟩ hs
    obtain ⟨t, hnext, hinv', hiff⟩ := announced_step hinv hs a
    exact ⟨t, hnext, fun _ => ⟨_, hinv'⟩, hiff⟩
  exact always_iff_along hstep acts s₀ ⟨0, hstart.inv⟩ hempty

/-- No call ends without a message in this step. -/
def Sys.sends (s : Sys ι κ) : Act ι κ → Bool
  | .call k => (s.calls[k]?).all fun pc => !pc.givesUp s
  | _ => true

/-- Calls that send their messages need no cover. -/
theorem Sys.covered_of_sends {a : Act ι κ} (h : s.sends a = true) : s.Covered a := by
  cases a with
  | call k =>
    intro pc netif hk hgo
    rw [Sys.sends, hk, Option.all_some, hgo] at h
    cases h
  | put netif buf => trivial
  | netifIn netif => trivial
  | expire cbs => trivial
  | timer => trivial
  | work => trivial

end Steps

/-- Two packets, one after the other. -/
theorem announced_two_packets :
    Always Sys.next Sys.Announced small
      ([.put 0 7, .call 0, .call 0, .call 0] ++ List.replicate 5 .work ++
        [.put 0 8, .call 1, .call 1, .call 1]) := by
  have hsent : Along Sys.next (fun s a => s.sends a = true) small
      ([.put 0 7, .call 0, .call 0, .call 0] ++ List.replicate 5 .work ++
        [.put 0 8, .call 1, .call 1, .call 1]) := by decide +kernel
  exact (announced_iff_covered small_create _).mpr (hsent.mono fun _ _ => Sys.covered_of_sends)

/-- With a callback in the queue of messages, a packet is queued and not announced. -/
theorem not_announced_full_queue :
    ∃ s, run Sys.next small ([.expire [some 5]] ++ List.replicate 3 .timer ++
      [.put 0 7, .call 0, .call 0, .call 0]) = some s ∧ ¬ s.Announced := by
  obtain ⟨s, hrun⟩ := Option.isSome_iff_exists.mp (show (run Sys.next small
    ([.expire [some 5]] ++ List.replicate 3 .timer ++
      [.put 0 7, .call 0, .call 0, .call 0])).isSome = true by decide +kernel)
  have hs : (run Sys.next small ([.expire [some 5]] ++ List.replicate 3 .timer ++
      [.put 0 7, .call 0, .call 0, .call 0])).map (fun s => ((s.inQ 0).items, s.calls, s.work,
        s.messages)) = some ([7], [.done], .idle, [⟨.timerFun, .timer (some ⟨0, 0, 5⟩)⟩]) := by
    decide +kernel
  rw [hrun, Option.map_some, Option.some.injEq] at hs
  simp only [Prod.mk.injEq] at hs
  obtain ⟨hinQ, hcalls, hwork, hmessages⟩ := hs
  refine ⟨s, hrun, fun hannounced => ?_⟩
  have hmem := hannounced 0 (by rw [hinQ]; decide) (by rw [hcalls]; decide) (by rw [hwork]; decide)
  rw [hmessages] at hmem
  exact absurd hmem (by decide)

end TinyTcp.Msg
