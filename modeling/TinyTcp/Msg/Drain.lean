/-
TinyTcp.Msg.Drain — the working thread comes to rest.

`work_thread_func` goes round for as long as there are messages, and
`do_netif_in` for as long as there are packets. `comes_to_rest` says that from any
reachable state the working thread comes to rest by itself, in as many
steps as `cost` says at most, and what it has done then: the queue of
messages is empty, every callback that waited has run, in order, and of the
in-queues those that were awaited are empty and the others untouched.

With `Announced` this is about the packets: `nothing_left_behind` says that
after a covered run, when no call is in progress, no packet is left in any
in-queue once the working thread rests.

## How the proof goes

`WorkPc.Does` lists what one step does to the in-queues, and `cost` goes
down in each of its cases. `Emptied` is what any number of steps do.
-/
import TinyTcp.Msg.Announce
import Mathlib.Algebra.Order.BigOperators.Group.Finset

namespace TinyTcp.Msg

open TinyTcp.Lib TinyTcp.Pkt TinyTcp.Ring

variable {ι κ : Type}

/-! ## What is awaited -/

def ExMsg.netif (msg : ExMsg ι κ) : Option ι :=
  match msg.type, msg.data with
  | .netifIn, .netif netif => some netif
  | _, _ => none

def WorkPc.netif : WorkPc ι κ → Option ι
  | .loop netif _ => some netif
  | .get netif _ => some netif
  | _ => none

/-- The steps that are left, but for the packets. -/
def WorkPc.cost : WorkPc ι κ → Nat
  | .idle => 0
  | .loop _ _ => 3
  | .get _ _ => 2
  | .run _ _ => 2
  | .release _ => 1

namespace Sys

variable (s : Sys ι κ)

/-- The working thread has nothing to do. -/
def AtRest : Prop := s.work = .idle ∧ s.msgQueue.items = []

variable [DecidableEq ι]

/-- The interfaces that the working thread is at, or will be told of. -/
def awaited : Finset ι := (s.work.netif.toList ++ s.messages.filterMap ExMsg.netif).toFinset

/-- The steps the working thread has to take for the packets of these interfaces. -/
def cost (netifs : Finset ι) : Nat :=
  s.work.cost + 4 * s.msgQueue.items.length + 2 * ∑ n ∈ netifs, (s.inQ n).items.length

end Sys

/-! ## One step -/

/-- A step of the working thread goes on without touching an in-queue,
leaves an interface whose in-queue it finds empty, or takes a packet. -/
inductive WorkPc.Does [DecidableEq ι] (s t : Sys ι κ) (pc pc' : WorkPc ι κ) : Prop
  | goes (inQ : t.inQ = s.inQ)
      (netif : pc'.netif.toList = pc.netif.toList ++ (pc.received s).filterMap ExMsg.netif)
      (cost : pc'.cost < pc.cost + 4 * (pc.received s).length)
  | leaves (n : ι) (inQ : t.inQ = s.inQ) (empty : (s.inQ n).items = []) (here : pc.netif = some n)
      (away : pc'.netif = none) (received : pc.received s = []) (cost : pc'.cost < pc.cost)
  | takes (n : ι) (buf : BufId) (rest : List BufId) (items : (s.inQ n).items = buf :: rest)
      (inQ : t.inQ = Function.update s.inQ n { s.inQ n with items := rest }) (here : pc.netif = some n)
      (stays : pc'.netif = some n) (received : pc.received s = []) (cost : pc'.cost ≤ pc.cost + 1)

section Steps

variable [DecidableEq ι] {s t : Sys ι κ} {blocks : Multiset MsgPtr} {lost : Nat}

theorem WorkPc.does {pc pc' : WorkPc ι κ} (h : pc.step s = some (t, pc'))
    (hbusy : pc = .idle → s.msgQueue.items ≠ []) : WorkPc.Does s t pc pc' := by
  cases pc with
  | idle =>
    obtain ⟨msg, rest, hitems⟩ := List.exists_cons_of_ne_nil (hbusy rfl)
    have hreceived : (WorkPc.idle : WorkPc ι κ).received s = [s.mem msg] := by
      simp [WorkPc.received, Sys.messages, hitems]
    simp only [WorkPc.step, Fifo.pop, hitems, WorkPc.dispatch] at h
    split at h
    · next n htype hdata =>
      cases h
      refine .goes rfl ?_ ?_
      · simp [hreceived, WorkPc.netif, ExMsg.netif, htype, hdata]
      · simp [hreceived, WorkPc.cost]
    · next func htype hdata =>
      cases h
      refine .goes rfl ?_ ?_
      · simp [hreceived, WorkPc.netif, ExMsg.netif, htype, hdata]
      · simp [hreceived, WorkPc.cost]
    · cases h
  | loop n msg =>
    rw [WorkPc.step] at h
    split at h
    · cases h
      exact .goes rfl rfl (Nat.lt_succ_self 2)
    · next hlen =>
      cases h
      exact .leaves n rfl (by simpa using hlen) rfl rfl rfl (by simp [WorkPc.cost])
  | get n msg =>
    rw [WorkPc.step] at h
    cases hitems : (s.inQ n).items with
    | nil =>
      rw [Fifo.pop, hitems] at h
      cases h
      exact .leaves n rfl hitems rfl rfl rfl (Nat.lt_succ_self 1)
    | cons buf rest =>
      rw [Fifo.pop, hitems] at h
      cases h
      exact .takes n buf rest hitems rfl rfl rfl rfl (Nat.le_refl 3)
  | run func msg =>
    cases h
    exact .goes rfl rfl (Nat.lt_succ_self 1)
  | release msg =>
    rw [WorkPc.step] at h
    split at h
    · obtain ⟨s', hrelease, h⟩ := Option.bind_eq_some_iff.mp h
      cases h
      exact .goes (Sys.releaseTimerMsgBlock_inQ hrelease) rfl Nat.zero_lt_one
    · cases h
      exact .goes rfl rfl Nat.zero_lt_one

/-! ## Any number of steps -/

/-- The callbacks that ran, and those the working thread will run. -/
def Sys.due (s : Sys ι κ) : List (Job κ) :=
  s.hist.ran ++ (s.work.ran ++ s.messages.filterMap ExMsg.func)

/-- What the working thread does by itself. -/
structure Emptied (s t : Sys ι κ) : Prop where
  awaited : t.awaited ⊆ s.awaited
  empty : ∀ n ∈ s.awaited, n ∉ t.awaited → (t.inQ n).items = []
  other : ∀ n ∉ s.awaited, t.inQ n = s.inQ n
  due : t.due = s.due
  frame : t.calls = s.calls ∧ t.timer = s.timer ∧ t.hist.taken = s.hist.taken

theorem Emptied.refl (s : Sys ι κ) : Emptied s s :=
  ⟨Finset.Subset.refl _, fun _ hin hout => absurd hin hout, fun _ _ => rfl, rfl, rfl, rfl, rfl⟩

theorem Emptied.trans {s t u : Sys ι κ} (h : Emptied s t) (h' : Emptied t u) : Emptied s u where
  awaited := h'.awaited.trans h.awaited
  empty := by
    intro n hs hu
    by_cases ht : n ∈ t.awaited
    · exact h'.empty n ht hu
    · rw [h'.other n ht]
      exact h.empty n hs ht
  other := fun n hn => (h'.other n fun ht => hn (h.awaited ht)).trans (h.other n hn)
  due := h'.due.trans h.due
  frame := by
    obtain ⟨hcalls, htimer, htaken⟩ := h.frame
    obtain ⟨hcalls', htimer', htaken'⟩ := h'.frame
    exact ⟨hcalls'.trans hcalls, htimer'.trans htimer, htaken'.trans htaken⟩

omit [DecidableEq ι] in
theorem Sys.length_messages (s : Sys ι κ) : s.messages.length = s.msgQueue.items.length :=
  List.length_map ..

/-- **One step** of a working thread that has something to do. -/
theorem Inv.work_step (h : Inv blocks s lost) (hbusy : ¬s.AtRest) :
    ∃ t, s.next .work = some t ∧ Inv blocks t lost ∧ Emptied s t ∧
      ∀ netifs, s.awaited ⊆ netifs → t.cost netifs < s.cost netifs := by
  obtain ⟨gone, -, hledger⟩ := h.ledger_work
  obtain ⟨u, pc, heq, hmoved, hran⟩ := WorkPc.moved s.work hledger
  obtain ⟨t, hnext, hinv⟩ := h.step .work
  have ht : t = { u with work := pc } := by
    rw [Sys.next, heq] at hnext
    exact (Option.some.inj hnext).symm
  have hdoes : WorkPc.Does s u s.work pc :=
    WorkPc.does heq fun hidle hempty => hbusy ⟨hidle, hempty⟩
  obtain ⟨hcalls, htimer, -⟩ := hmoved.frame
  have hmessages : s.messages = s.work.received s ++ t.messages := by
    have := hmoved.messages
    rw [List.append_nil] at this
    rw [ht]
    exact this
  have hlength : s.msgQueue.items.length = (s.work.received s).length + t.msgQueue.items.length := by
    rw [← s.length_messages, hmessages, List.length_append, t.length_messages]
  have hdue : t.due = s.due := by
    subst ht
    simp [Sys.due, hmoved.ran, hran, hmessages, List.filterMap_append, List.append_assoc]
  have hframe : t.calls = s.calls ∧ t.timer = s.timer ∧ t.hist.taken = s.hist.taken := by
    subst ht
    exact ⟨hcalls, htimer, hmoved.taken⟩
  have hinQ : t.inQ = u.inQ := by rw [ht]
  have hwork : t.work = pc := by rw [ht]
  refine ⟨t, hnext, hinv, ?_⟩
  cases hdoes with
  | goes inQ netif cost =>
    have hawaited : t.awaited = s.awaited := by
      simp only [Sys.awaited, hwork, netif, hmessages, List.filterMap_append, List.append_assoc]
    refine ⟨⟨hawaited.subset, fun n hs hout => absurd (hawaited ▸ hs) hout, fun n _ => ?_, hdue,
      hframe⟩, fun netifs _ => ?_⟩
    · rw [hinQ, inQ]
    · simp only [Sys.cost, hwork, hinQ, inQ, hlength]
      omega
  | leaves n inQ empty here away received cost =>
    rw [received, List.nil_append] at hmessages
    have hsub : ∀ k, k ∈ s.awaited ↔ k = n ∨ k ∈ t.awaited := by
      intro k
      simp [Sys.awaited, hwork, here, away, hmessages]
    refine ⟨⟨fun k hk => (hsub k).mpr (Or.inr hk), fun k hs hout => ?_, fun k _ => ?_, hdue, hframe⟩,
      fun netifs _ => ?_⟩
    · rw [hinQ, inQ, ((hsub k).mp hs).resolve_right hout, empty]
    · rw [hinQ, inQ]
    · simp only [Sys.cost, hwork, hinQ, inQ, hlength, received, List.length_nil]
      omega
  | takes n buf rest items inQ here stays received cost =>
    rw [received, List.nil_append] at hmessages
    have hawaited : t.awaited = s.awaited := by
      simp only [Sys.awaited, hwork, here, stays, hmessages]
    have hn : n ∈ s.awaited := by simp [Sys.awaited, here]
    refine ⟨⟨hawaited.subset, fun k hs hout => absurd (hawaited ▸ hs) hout, fun k hk => ?_, hdue,
      hframe⟩, fun netifs hsub => ?_⟩
    · have hne : k ≠ n := fun heq => hk (by rw [heq]; exact hn)
      rw [hinQ, inQ, Function.update_of_ne hne]
    · -- one packet less in the in-queue of `n`
      have hself : (t.inQ n).items = rest := by rw [hinQ, inQ, Function.update_self]
      have hsum : ∑ k ∈ netifs, (t.inQ k).items.length < ∑ k ∈ netifs, (s.inQ k).items.length := by
        refine Finset.sum_lt_sum (fun k _ => ?_) ⟨n, hsub hn, ?_⟩
        · by_cases hk : k = n
          · rw [hk, hself, items]
            exact Nat.le_succ _
          · rw [hinQ, inQ, Function.update_of_ne hk]
        · rw [hself, items]
          exact Nat.lt_succ_self _
      simp only [Sys.cost, hwork, hlength, received, List.length_nil]
      omega

/-! ## Coming to rest -/

theorem Sys.AtRest.awaited (h : s.AtRest) : s.awaited = ∅ := by
  simp [Sys.awaited, Sys.messages, h.1, h.2, WorkPc.netif]

omit [DecidableEq ι] in
theorem Sys.AtRest.due (h : s.AtRest) : s.due = s.hist.ran := by
  simp [Sys.due, Sys.messages, h.1, h.2, WorkPc.ran]

/-- From any state with the invariant. -/
theorem Inv.drains (h : Inv blocks s lost) :
    ∃ n ≤ s.cost s.awaited, ∃ t, run Sys.next s (List.replicate n .work) = some t ∧
      Inv blocks t lost ∧ Emptied s t ∧ t.AtRest := by
  have hstep : ∀ t, Inv blocks t lost ∧ Emptied s t → ¬t.AtRest → ∃ t', t.next .work = some t' ∧
      (Inv blocks t' lost ∧ Emptied s t') ∧ t'.cost s.awaited < t.cost s.awaited := by
    rintro t ⟨hinv, hemptied⟩ hbusy
    obtain ⟨t', hnext, hinv', hemptied', hcost⟩ := hinv.work_step hbusy
    exact ⟨t', hnext, ⟨hinv', hemptied.trans hemptied'⟩, hcost _ hemptied.awaited⟩
  obtain ⟨n, hn, t, hrun, ⟨hinv, hemptied⟩, hrest⟩ :=
    exists_run_replicate (fun t : Sys ι κ => t.cost s.awaited) hstep s ⟨h, .refl s⟩
  exact ⟨n, hn, t, hrun, hinv, hemptied, hrest⟩

theorem Emptied.inQ_of_rest (h : Emptied s t) (hrest : t.AtRest) (netif : ι) :
    (t.inQ netif).items = if netif ∈ s.awaited then [] else (s.inQ netif).items := by
  split
  · next hin => exact h.empty netif hin (by simp [hrest.awaited])
  · next hout => rw [h.other netif hout]

section Runs

variable {exmsgSize : Int32} {msgQueueSize timerMsgQueueSize netifInQueueSize : UInt32} {mem : MsgPtr → ExMsg ι κ}
  {s₀ : Sys ι κ}

theorem run_inv (h : Sys.create exmsgSize msgQueueSize timerMsgQueueSize netifInQueueSize mem = some s₀)
    {acts : List (Act ι κ)} (hrun : run Sys.next s₀ acts = some s) :
    ∃ lost, Inv (s₀.stock : Multiset MsgPtr) s lost := by
  have hstep : ∀ (s : Sys ι κ) (a : Act ι κ) (s' : Sys ι κ),
      (∃ lost, Inv (s₀.stock : Multiset MsgPtr) s lost) → True → s.next a = some s' →
        ∃ lost, Inv (s₀.stock : Multiset MsgPtr) s' lost := by
    rintro s a s' ⟨lost, hinv⟩ - hnext
    obtain ⟨t, ht, hinv'⟩ := hinv.step a
    rw [hnext] at ht
    cases ht
    exact ⟨_, hinv'⟩
  exact run_induction hstep acts s₀ s ⟨0, (create_start h).inv⟩
    (along_of_forall (p := fun _ => True) (fun _ _ => trivial) s₀) hrun

/-- **The working thread comes to rest**, from every reachable state, whatever
the other threads have begun. It has emptied the in-queues it was at or was
told of, no other, and run the callbacks that waited, each once and in order. -/
theorem comes_to_rest (h : Sys.create exmsgSize msgQueueSize timerMsgQueueSize netifInQueueSize mem = some s₀)
    (acts : List (Act ι κ)) (hrun : run Sys.next s₀ acts = some s) :
    ∃ n ≤ s.cost s.awaited, ∃ t, run Sys.next s (List.replicate n .work) = some t ∧ t.AtRest ∧
      (∀ netif, (t.inQ netif).items = if netif ∈ s.awaited then [] else (s.inQ netif).items) ∧
      t.hist.ran = s.due ∧ t.calls = s.calls ∧ t.timer = s.timer := by
  obtain ⟨lost, hinv⟩ := run_inv h hrun
  obtain ⟨n, hn, t, hwork, -, hemptied, hrest⟩ := hinv.drains
  obtain ⟨hcalls, htimer, -⟩ := hemptied.frame
  exact ⟨n, hn, t, hwork, hrest, hemptied.inQ_of_rest hrest,
    hrest.due.symm.trans hemptied.due, hcalls, htimer⟩

/-- Two packets are queued, and the first is announced. -/
def twoPuts : List (Act Nat Nat) :=
  [.put 0 7, .call 0, .call 0, .call 0, .put 1 8, .call 1]

theorem comes_to_rest_twoPuts :
    ∃ s, run Sys.next small twoPuts = some s ∧
      ∃ n ≤ 6, ∃ t, run Sys.next s (List.replicate n .work) = some t ∧ t.AtRest ∧
        (t.inQ 0).items = [] ∧ (t.inQ 1).items = [8] := by
  have hstate : (run Sys.next small twoPuts).map
      (fun s => (s.cost s.awaited, decide (0 ∈ s.awaited), decide (1 ∈ s.awaited), (s.inQ 1).items)) =
        some (6, true, false, [8]) := by decide +kernel
  obtain ⟨s, hrun, heq⟩ := Option.map_eq_some_iff.mp hstate
  obtain ⟨hcost, hzero, hone, hinQ⟩ :
      s.cost s.awaited = 6 ∧ decide (0 ∈ s.awaited) = true ∧ decide (1 ∈ s.awaited) = false ∧
        (s.inQ 1).items = [8] := by simpa only [Prod.mk.injEq] using heq
  obtain ⟨n, hn, t, hwork, hrest, hitems, -⟩ := comes_to_rest small_create twoPuts hrun
  refine ⟨s, hrun, n, hcost ▸ hn, t, hwork, hrest, ?_, ?_⟩
  · rw [hitems, if_pos (of_decide_eq_true hzero)]
  · rw [hitems, if_neg (of_decide_eq_false hone), hinQ]

omit [DecidableEq ι] in
theorem ExMsg.netif_announcement (netif : ι) : (announcement netif : ExMsg ι κ).netif = some netif := rfl

/-- A packet that is announced is awaited. -/
theorem Sys.Announced.mem_awaited (h : s.Announced) (hcalls : ∀ pc ∈ s.calls, pc = .done) {netif : ι}
    (hne : (s.inQ netif).items ≠ []) : netif ∈ s.awaited := by
  unfold Sys.awaited
  rw [List.mem_toFinset, List.mem_append]
  cases hon : s.work.on netif with
  | true =>
    left
    cases hwork : s.work with
    | loop n msg => simpa [hwork, WorkPc.on, WorkPc.netif, eq_comm] using hon
    | get n msg => simpa [hwork, WorkPc.on, WorkPc.netif, eq_comm] using hon
    | idle => simp [hwork, WorkPc.on] at hon
    | run func msg => simp [hwork, WorkPc.on] at hon
    | release msg => simp [hwork, WorkPc.on] at hon
  | false =>
    right
    have hoff : ∀ pc ∈ s.calls, pc.on netif = false := by
      intro pc hpc
      rw [hcalls pc hpc]
      rfl
    exact List.mem_filterMap.mpr ⟨_, h netif hne hoff hon, ExMsg.netif_announcement netif⟩

/-- **No packet is left behind**: after a run whose steps are all covered, when
no call is in progress, every in-queue is empty once the working thread has
come to rest. -/
theorem nothing_left_behind
    (h : Sys.create exmsgSize msgQueueSize timerMsgQueueSize netifInQueueSize mem = some s₀)
    (acts : List (Act ι κ)) (hrun : run Sys.next s₀ acts = some s)
    (hcovered : Along Sys.next Sys.Covered s₀ acts) (hcalls : ∀ pc ∈ s.calls, pc = .done) :
    ∃ n ≤ s.cost s.awaited, ∃ t, run Sys.next s (List.replicate n .work) = some t ∧ t.AtRest ∧
      ∀ netif, (t.inQ netif).items = [] := by
  have hstart := create_start h
  have hstep : ∀ (s : Sys ι κ) (a : Act ι κ) (s' : Sys ι κ),
      (∃ lost, Inv (s₀.stock : Multiset MsgPtr) s lost) ∧ s.Announced → s.Covered a →
        s.next a = some s' → (∃ lost, Inv (s₀.stock : Multiset MsgPtr) s' lost) ∧ s'.Announced := by
    rintro s a s' ⟨⟨lost, hinv⟩, hann⟩ hcov hnext
    obtain ⟨t, ht, hinv', hiff⟩ := announced_step hinv hann a
    rw [hnext] at ht
    cases ht
    exact ⟨⟨_, hinv'⟩, hiff.mpr hcov⟩
  have hempty : s₀.Announced := fun netif hne => absurd (hstart.inQ netif) hne
  obtain ⟨⟨lost, hinv⟩, hann⟩ :=
    run_induction hstep acts s₀ s ⟨⟨0, hstart.inv⟩, hempty⟩ hcovered hrun
  obtain ⟨n, hn, t, hwork, -, hemptied, hrest⟩ := hinv.drains
  refine ⟨n, hn, t, hwork, hrest, fun netif => ?_⟩
  rw [hemptied.inQ_of_rest hrest]
  split
  · rfl
  · next hout => exact Decidable.not_not.mp fun hne => hout (hann.mem_awaited hcalls hne)

/-- The second packet finds no block for its message, and the working thread
still at the interface. -/
def latePut : List (Act Nat Nat) :=
  [.put 0 7, .call 0, .call 0, .call 0, .work, .work, .work, .put 0 8, .call 1, .call 1]

theorem nothing_left_behind_latePut :
    ∃ s, run Sys.next small latePut = some s ∧
      ∃ n ≤ 5, ∃ t, run Sys.next s (List.replicate n .work) = some t ∧ t.AtRest ∧
        ∀ netif, (t.inQ netif).items = [] := by
  have hstate : (run Sys.next small latePut).map (fun s => (s.cost s.awaited, s.calls)) =
      some (5, [.done, .done]) := by decide +kernel
  obtain ⟨s, hrun, heq⟩ := Option.map_eq_some_iff.mp hstate
  obtain ⟨hcost, hcalls⟩ : s.cost s.awaited = 5 ∧ s.calls = [.done, .done] := by
    simpa only [Prod.mk.injEq] using heq
  have hsteps : Along Sys.next (fun s a => s.sends a = true ∨
      a = .call 1 ∧ s.calls[1]? = some (.getMsgBlock 0) ∧ s.work.on 0 = true) small latePut := by
    decide +kernel
  have hcovered : Along Sys.next Sys.Covered small latePut := by
    refine hsteps.mono fun s a hok => ?_
    rcases hok with hsends | ⟨rfl, hcall, hon⟩
    · exact Sys.covered_of_sends hsends
    · intro pc netif hpc _ hnetif
      rw [hcall] at hpc
      cases hpc
      rw [← of_decide_eq_true hnetif]
      exact Or.inr (Or.inr (Or.inl hon))
  obtain ⟨n, hn, t, hwork, hrest, hempty⟩ :=
    nothing_left_behind small_create latePut hrun hcovered (by simp [hcalls])
  exact ⟨s, hrun, n, hcost ▸ hn, t, hwork, hrest, hempty⟩

end Runs

end Steps

end TinyTcp.Msg
