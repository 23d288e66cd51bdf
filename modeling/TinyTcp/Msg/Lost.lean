/-
TinyTcp.Msg.Lost — which message blocks are lost.

`msg_send` drops the result of `push_msg`, so `exmsg_netif_in` never
learns that the queue was full, and the block it holds then is in no place
any more. `all_home_iff` says that nothing else loses a block: in a run
that ends with no step in progress, every block is in its own pool or in
the queue exactly if no announcement was sent to a full queue.
-/
import TinyTcp.Msg.Ownership

namespace TinyTcp.Msg

open TinyTcp.Lib TinyTcp.Pkt TinyTcp.Ring

variable {ι κ : Type} {s s₀ : Sys ι κ} {blocks : Multiset MsgPtr} {lost : Nat}

/-- Every block that was in a pool at the start is there, or in the queue of messages. -/
def Sys.AllHome (s₀ s : Sys ι κ) : Prop :=
  ∀ pool, ∀ msg ∈ (s₀.pool pool).items, msg ∈ (s.pool pool).items ∨ msg ∈ s.msgQueue.items

/-- `exmsg_netif_in` does not send its message to a full queue in this step. -/
def Sys.SendFits (s : Sys ι κ) (a : Act ι κ) : Prop :=
  match a with
  | .call k => ∀ netif msg, s.calls[k]? = some (.msgSend netif msg) →
      s.msgQueue.items.length < s.msgQueue.cap
  | _ => True

theorem Sys.places_of_quiet (h : s.Quiet) : s.places = s.stock ++ s.msgQueue.items := by
  obtain ⟨hcalls, htimer, hwork⟩ := h
  have hnone : s.calls.filterMap CallPc.msg = [] := by
    rw [List.filterMap_eq_nil_iff]
    intro pc hpc
    rw [hcalls pc hpc]
    rfl
  unfold Sys.places Sys.stock
  rw [htimer, hwork, hnone]
  exact List.append_nil _

/-- With nothing in progress, the blocks that are not at home are the lost ones. -/
theorem Inv.home_iff (h : Inv (s₀.stock : Multiset MsgPtr) s lost) (hstart : Start s₀)
    (hquiet : s.Quiet) : s₀.AllHome s ↔ lost = 0 := by
  have hown := h.own
  obtain ⟨gone, hledger, rfl⟩ := h.ledger
  have hcells : (s.places : Multiset MsgPtr) + gone.map Prod.fst = s₀.stock := by
    rw [← hledger.held.cells, ← fst_places, ← Multiset.map_add, add_assoc]
  have hplaces := Sys.places_of_quiet hquiet
  constructor
  · intro hhome
    by_contra hne
    have hgone : gone ≠ 0 := fun hzero => hne (Multiset.card_eq_zero.mpr hzero)
    obtain ⟨c, hc⟩ := Multiset.exists_mem_of_ne_zero hgone
    have hlost : c.1 ∈ gone.map Prod.fst := Multiset.mem_map_of_mem Prod.fst hc
    have hstock : c.1 ∈ s₀.stock := by
      rw [← Multiset.mem_coe, ← hcells]
      exact Multiset.mem_add.mpr (Or.inr hlost)
    -- a block that is both in a place and lost is there twice
    have hplace : c.1 ∈ (s.places : Multiset MsgPtr) := by
      rw [hplaces, Multiset.mem_coe]
      unfold Sys.stock at hstock ⊢
      rcases List.mem_append.mp hstock with hmain | htimer
      · rcases hhome .main c.1 hmain with hin | hin
        · exact List.mem_append_left _ (List.mem_append_left _ hin)
        · exact List.mem_append_right _ hin
      · rcases hhome .timer c.1 htimer with hin | hin
        · exact List.mem_append_left _ (List.mem_append_right _ hin)
        · exact List.mem_append_right _ hin
    have hnodup := hledger.nodup
    rw [← hcells] at hnodup
    exact (Multiset.disjoint_left.mp (Multiset.nodup_add.mp hnodup).2.2) hplace hlost
  · intro hzero pool msg hmsg
    rw [Multiset.card_eq_zero.mp hzero, Multiset.map_zero, add_zero, hplaces] at hcells
    have hstock : msg ∈ s₀.stock := by
      unfold Sys.stock
      cases pool with
      | main => exact List.mem_append_left _ hmsg
      | timer => exact List.mem_append_right _ hmsg
    rw [← Multiset.mem_coe, ← hcells, Multiset.mem_coe] at hstock
    have hpool := hstart.own pool msg hmsg
    rcases List.mem_append.mp hstock with hin | hin
    · refine Or.inl ?_
      unfold Sys.stock at hin
      rcases List.mem_append.mp hin with hmain | htimer
      · rw [← hpool, hown .main msg hmain]
        exact hmain
      · rw [← hpool, hown .timer msg htimer]
        exact htimer
    · exact Or.inr hin

theorem Sys.loses_iff (s : Sys ι κ) (a : Act ι κ) : (s.loses a).toNat = 0 ↔ s.SendFits a := by
  cases a with
  | call k =>
    unfold Sys.loses Sys.SendFits
    simp only [Bool.toNat_eq_zero]
    cases s.calls[k]? with
    | none => simp
    | some pc =>
      cases pc with
      | msgSend netif msg => simp [CallPc.loses]
      | done => simp [CallPc.loses]
      | put netif buf => simp [CallPc.loses]
      | getMsgBlock netif => simp [CallPc.loses]
      | release netif msg => simp [CallPc.loses]
  | put netif buf => exact iff_of_true rfl trivial
  | netifIn netif => exact iff_of_true rfl trivial
  | expire cbs => exact iff_of_true rfl trivial
  | timer => exact iff_of_true rfl trivial
  | work => exact iff_of_true rfl trivial

instance (s : Sys ι κ) (a : Act ι κ) : Decidable (s.SendFits a) :=
  decidable_of_iff _ (s.loses_iff a)

section Runs

variable [DecidableEq ι]

/-- **No block is lost, except by sending to a full queue**: when a run
ends with no step in progress, every block is in its own pool or in the
queue exactly if no step sent an announcement to a full queue. -/
theorem all_home_iff {exmsgSize : Int32} {msgQueueSize timerMsgQueueSize netifInQueueSize : UInt32}
    {mem : MsgPtr → ExMsg ι κ} {s₀ s : Sys ι κ}
    (h : Sys.create exmsgSize msgQueueSize timerMsgQueueSize netifInQueueSize mem = some s₀)
    (acts : List (Act ι κ)) (hrun : run Sys.next s₀ acts = some s) (hquiet : s.Quiet) :
    s₀.AllHome s ↔ Along Sys.next Sys.SendFits s₀ acts := by
  have hstart := create_start h
  have hstep : ∀ (s : Sys ι κ) (a : Act ι κ) (s' : Sys ι κ) (n : Nat),
      Inv (s₀.stock : Multiset MsgPtr) s n → s.next a = some s' →
      ∃ k, Inv (s₀.stock : Multiset MsgPtr) s' (n + k) ∧ (k = 0 ↔ s.SendFits a) := by
    intro s a s' n hinv hnext
    obtain ⟨t, ht, hinv'⟩ := hinv.step a
    obtain rfl : t = s' := Option.some.inj (ht.symm.trans hnext)
    exact ⟨_, hinv', s.loses_iff a⟩
  obtain ⟨k, hinv, hk⟩ := run_count hstep acts s₀ s 0 hstart.inv hrun
  rw [Nat.zero_add] at hinv
  exact (hinv.home_iff hstart hquiet).trans hk

/-- A callback that finds the queue full is dropped, and its block comes back. -/
theorem all_home_dropped_callback :
    ∃ s, run Sys.next small ([.netifIn 0, .call 0, .call 0, .expire [some 5]] ++
      List.replicate 4 .timer) = some s ∧ s.Quiet ∧ small.AllHome s := by
  obtain ⟨s, hrun⟩ := Option.isSome_iff_exists.mp (show (run Sys.next small
    ([.netifIn 0, .call 0, .call 0, .expire [some 5]] ++ List.replicate 4 .timer)).isSome = true by
      decide +kernel)
  have hquiet : (run Sys.next small ([.netifIn 0, .call 0, .call 0, .expire [some 5]] ++
      List.replicate 4 .timer)).map (fun s => decide s.Quiet) = some true := by decide +kernel
  rw [hrun, Option.map_some, Option.some.injEq, decide_eq_true_eq] at hquiet
  exact ⟨s, hrun, hquiet, (all_home_iff small_create _ hrun hquiet).mpr (by decide +kernel)⟩

/-- With a callback in the queue, the announcement does not fit, and its
block is neither in the pool nor in the queue afterwards. -/
theorem lost_on_full_queue :
    ∃ s, run Sys.next small ([.expire [some 5]] ++ List.replicate 3 .timer ++
      [.netifIn 0, .call 0, .call 0]) = some s ∧ s.Quiet ∧ ¬ small.AllHome s := by
  obtain ⟨s, hrun⟩ := Option.isSome_iff_exists.mp (show (run Sys.next small
    ([.expire [some 5]] ++ List.replicate 3 .timer ++ [.netifIn 0, .call 0, .call 0])).isSome =
      true by decide +kernel)
  have hs : (run Sys.next small ([.expire [some 5]] ++ List.replicate 3 .timer ++
      [.netifIn 0, .call 0, .call 0])).map (fun s => (decide s.Quiet, s.memBlock.items,
        s.msgQueue.items)) = some (true, [], [⟨.timer, 0⟩]) := by decide +kernel
  rw [hrun, Option.map_some, Option.some.injEq, Prod.mk.injEq, Prod.mk.injEq,
    decide_eq_true_eq] at hs
  obtain ⟨hquiet, hmain, hqueue⟩ := hs
  refine ⟨s, hrun, hquiet, fun hhome => ?_⟩
  have hblock := hhome .main ⟨.main, 0⟩ (List.mem_singleton_self _)
  change _ ∈ s.memBlock.items ∨ _ at hblock
  rw [hmain, hqueue] at hblock
  exact absurd hblock (by decide)

end Runs

end TinyTcp.Msg
