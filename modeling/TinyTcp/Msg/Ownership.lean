/-
TinyTcp.Msg.Ownership — every message block has one owner and one pool,
and every callback runs once at most, in order.

`one_owner` is about every run of any number of calls, the timer thread
and the working thread, in any interleaving and for any sizes of the
queues. The invariant `Inv` is the ledger of the blocks with the ones that
are lost, and the line of the callbacks: those that ran, the one about to
run, those in the messages that wait, and those the timer thread has still
to send. A step may drop callbacks from the line and `list_expired_cb`
puts new ones behind, but nobody changes places.
-/
import TinyTcp.Msg.Moves

namespace TinyTcp.Msg

open TinyTcp.Lib TinyTcp.Pkt TinyTcp.Ring

variable {ι κ : Type}

/-! ## Callbacks -/

/-- `a` was taken before `b`: in an earlier batch, or earlier in the same one. -/
def Job.Before (a b : Job κ) : Prop := a.batch < b.batch ∨ a.batch = b.batch ∧ a.index < b.index

/-- The callback is what `list_expired_cb` returned at this place. -/
def Job.Taken (j : Job κ) (taken : List (List (Option κ))) : Prop :=
  ∃ cbs, taken[j.batch]? = some cbs ∧ cbs[j.index]? = some (some j.cb)

theorem Job.Taken.append {j : Job κ} {taken : List (List (Option κ))} (h : j.Taken taken)
    (cbs : List (Option κ)) : j.Taken (taken ++ [cbs]) := by
  obtain ⟨cbs', hbatch, hindex⟩ := h
  have hlt : j.batch < taken.length := (List.getElem?_eq_some_iff.mp hbatch).1
  exact ⟨cbs', by rw [List.getElem?_append_left hlt, hbatch], hindex⟩

theorem Job.Taken.batch_lt {j : Job κ} {taken : List (List (Option κ))} (h : j.Taken taken) :
    j.batch < taken.length := by
  obtain ⟨cbs, hbatch, -⟩ := h
  exact (List.getElem?_eq_some_iff.mp hbatch).1

theorem mem_jobs {n : Nat} {cbs : List (Option κ)} {j : Job κ}
    (hj : j ∈ (jobs n cbs).reduceOption) : j.batch = n ∧ cbs[j.index]? = some (some j.cb) := by
  rw [List.reduceOption_mem_iff, jobs, List.mem_map] at hj
  obtain ⟨⟨cb, index⟩, hmem, heq⟩ := hj
  obtain ⟨cb', rfl, rfl⟩ := Option.map_eq_some_iff.mp heq
  exact ⟨rfl, List.mem_zipIdx_iff_getElem?.mp hmem⟩

/-- The callbacks of a batch are in its order. -/
theorem jobs_pairwise (n : Nat) (cbs : List (Option κ)) :
    (jobs n cbs).reduceOption.Pairwise Job.Before := by
  have hgen : ∀ k, ((cbs.zipIdx k).map fun c => c.1.map (Job.mk n c.2)).reduceOption.Pairwise
        Job.Before ∧
      ∀ j ∈ ((cbs.zipIdx k).map fun c => c.1.map (Job.mk n c.2)).reduceOption,
        j.batch = n ∧ k ≤ j.index := by
    induction cbs with
    | nil => simp
    | cons cb cbs ih =>
      intro k
      obtain ⟨hpair, hmem⟩ := ih (k + 1)
      rw [List.zipIdx_cons, List.map_cons]
      cases cb with
      | none =>
        refine ⟨hpair, fun j hj => ?_⟩
        have := hmem j hj
        exact ⟨this.1, by omega⟩
      | some cb =>
        simp only [Option.map_some, List.reduceOption_cons_of_some, List.pairwise_cons,
          List.mem_cons, forall_eq_or_imp]
        refine ⟨⟨fun j hj => Or.inr ⟨(hmem j hj).1.symm, (hmem j hj).2⟩, hpair⟩,
          ⟨trivial, Nat.le_refl k⟩, fun j hj => ?_⟩
        have := hmem j hj
        exact ⟨this.1, by omega⟩
  exact (hgen 0).1

/-! ## Places -/

def CallPc.msg : CallPc ι → Option MsgPtr
  | .msgSend _ msg => some msg
  | .release _ msg => some msg
  | _ => none

def TimerPc.msg : TimerPc κ → Option MsgPtr
  | .pushMsg _ msg _ => some msg
  | .release _ msg _ => some msg
  | _ => none

def WorkPc.msg : WorkPc ι κ → Option MsgPtr
  | .idle => none
  | .loop _ msg => some msg
  | .get _ msg => some msg
  | .run _ msg => some msg
  | .release msg => some msg

namespace Sys

variable (s : Sys ι κ)

/-- Where message blocks are: in the pools, in the queue, with the threads. -/
def places : List MsgPtr :=
  s.memBlock.items ++ s.timerMemBlock.items ++ s.msgQueue.items ++
    (s.work.msg.toList ++ (s.timer.msg.toList ++ s.calls.filterMap CallPc.msg))

/-- What the threads have. -/
def claims : MsgClaims ι κ := s.work.claims + (s.timer.claims + (s.calls.map CallPc.claims).sum)

/-- The callbacks that ran or may still run. -/
def line : List (Job κ) :=
  s.hist.ran ++ (s.work.ran ++ (s.messages.filterMap ExMsg.func ++ s.timer.funcs))

end Sys

variable {s s' : Sys ι κ}

theorem CallPc.fst_claims (pc : CallPc ι) :
    (pc.claims : MsgClaims ι κ).map Prod.fst = (pc.msg.toList : Multiset MsgPtr) := by
  cases pc <;> rfl

theorem TimerPc.fst_claims (pc : TimerPc κ) :
    (pc.claims : MsgClaims ι κ).map Prod.fst = (pc.msg.toList : Multiset MsgPtr) := by
  cases pc <;> rfl

theorem WorkPc.fst_claims (pc : WorkPc ι κ) :
    (pc.claims : MsgClaims ι κ).map Prod.fst = (pc.msg.toList : Multiset MsgPtr) := by
  cases pc <;> rfl

theorem fst_calls (calls : List (CallPc ι)) :
    (calls.map (CallPc.claims : CallPc ι → MsgClaims ι κ)).sum.map Prod.fst =
      (calls.filterMap CallPc.msg : Multiset MsgPtr) := by
  induction calls with
  | nil => rfl
  | cons pc calls ih =>
    rw [List.map_cons, List.sum_cons, Multiset.map_add, ih, pc.fst_claims, List.filterMap_cons]
    cases pc.msg with
    | none => rw [Option.toList_none, Multiset.coe_nil, zero_add]
    | some msg => rfl

theorem fst_shelf (main timer queue : List MsgPtr) :
    (shelf main timer queue : MsgClaims ι κ).map Prod.fst =
      ((main ++ timer ++ queue : List MsgPtr) : Multiset MsgPtr) := by
  have hmap : ∀ (xs : List MsgPtr) (t : Stage ι κ),
      ((xs : Multiset MsgPtr).map (·, t)).map Prod.fst = (xs : Multiset MsgPtr) := by
    intro xs t
    rw [Multiset.map_map]
    exact Multiset.map_id _
  unfold shelf
  rw [Multiset.map_add, Multiset.map_add, hmap, hmap, hmap, Multiset.coe_add, Multiset.coe_add]

/-- The claims are on the blocks in these places. -/
theorem fst_places (s : Sys ι κ) :
    (s.shelved + s.claims).map Prod.fst = (s.places : Multiset MsgPtr) := by
  unfold Sys.shelved Sys.claims Sys.places
  rw [Multiset.map_add, Multiset.map_add, Multiset.map_add, fst_shelf, WorkPc.fst_claims,
    TimerPc.fst_claims, fst_calls, Multiset.coe_add, Multiset.coe_add, Multiset.coe_add]

/-! ## The invariant -/

/-- `lost` blocks are in no place. -/
structure Inv (blocks : Multiset MsgPtr) (s : Sys ι κ) (lost : Nat) : Prop where
  ledger : ∃ gone : MsgClaims ι κ, Ledger blocks s (s.claims + gone) ∧ gone.card = lost
  releases : ∀ r ∈ s.hist.releases, r.Proper
  ordered : s.line.Pairwise Job.Before
  taken : ∀ j ∈ s.line, j.Taken s.hist.taken

variable {blocks : Multiset MsgPtr} {lost : Nat}

/-- The part of the invariant that is about the blocks. -/
theorem Moved.ledger {others has : MsgClaims ι κ} {gone : MsgClaims ι κ} {cost : Nat}
    {received sent : List (ExMsg ι κ)} {ran : List (Job κ)}
    (h : Moved blocks (others + gone) s s' has cost received sent ran) {claims : MsgClaims ι κ}
    (hclaims : claims = has + others) :
    ∃ gone' : MsgClaims ι κ, Ledger blocks s' (claims + gone') ∧ gone'.card = gone.card + cost := by
  obtain ⟨more, hledger, hcard⟩ := h.kept
  refine ⟨more + gone, ?_, by rw [Multiset.card_add, hcard, Nat.add_comm]⟩
  rw [hclaims, add_assoc, add_left_comm others]
  exact hledger

/-- A thread has moved, and dropped some callbacks at most. -/
theorem Inv.move (h : Inv blocks s lost) {lost' : Nat}
    (hledger : ∃ gone : MsgClaims ι κ, Ledger blocks s' (s'.claims + gone) ∧ gone.card = lost')
    (hreleases : ∀ r ∈ s'.hist.releases, r ∈ s.hist.releases ∨ r.Proper)
    (htaken : s'.hist.taken = s.hist.taken) (hline : s'.line.Sublist s.line) :
    Inv blocks s' lost' where
  ledger := hledger
  releases := fun r hr => (hreleases r hr).elim (h.releases r) id
  ordered := h.ordered.sublist hline
  taken := fun j hj => htaken ▸ h.taken j (hline.subset hj)

theorem CallPc.sent_func (s : Sys ι κ) (pc : CallPc ι) :
    (pc.sent s).filterMap ExMsg.func = [] := by
  cases pc with
  | msgSend netif msg =>
    rw [CallPc.sent]
    split
    · rfl
    · rfl
  | done => rfl
  | put netif buf => rfl
  | getMsgBlock netif => rfl
  | release netif msg => rfl

/-- A call begins. -/
theorem Inv.call_added (h : Inv blocks s lost) (pc : CallPc ι) (hmsg : pc.msg = none) :
    Inv blocks { s with calls := s.calls ++ [pc] } lost := by
  obtain ⟨gone, hledger, rfl⟩ := h.ledger
  refine h.move ⟨gone, ?_, rfl⟩ (fun r hr => Or.inl hr) rfl (.refl _)
  have hzero : (pc.claims : MsgClaims ι κ) = 0 := by
    have hfst := CallPc.fst_claims (κ := κ) pc
    rw [hmsg] at hfst
    exact Multiset.map_eq_zero.mp hfst
  have hclaims : ({ s with calls := s.calls ++ [pc] } : Sys ι κ).claims = s.claims := by
    unfold Sys.claims
    rw [List.map_append, List.sum_append, List.map_singleton, List.sum_singleton, hzero, add_zero]
  rw [hclaims]
  exact hledger.congr rfl rfl rfl rfl

/-- The ledger as a call sees it. -/
theorem Inv.ledger_call (h : Inv blocks s lost) {k : Nat} {pc : CallPc ι} (hk : s.calls[k]? = some pc) :
    ∃ rest gone : MsgClaims ι κ, gone.card = lost ∧
      Ledger blocks s (pc.claims + (s.work.claims + (s.timer.claims + rest) + gone)) ∧
      ∀ pc' : CallPc ι, ((s.calls.set k pc').map CallPc.claims).sum = pc'.claims + rest := by
  obtain ⟨gone, hledger, hcard⟩ := h.ledger
  obtain ⟨rest, hsum, hset⟩ := exists_sum_rest (CallPc.claims : CallPc ι → MsgClaims ι κ) hk
  have hclaims : s.claims = pc.claims + (s.work.claims + (s.timer.claims + rest)) := by
    unfold Sys.claims
    rw [hsum]
    ac_rfl
  rw [hclaims, add_assoc] at hledger
  exact ⟨rest, gone, hcard, hledger, hset⟩

/-- The ledger as the timer thread sees it. -/
theorem Inv.ledger_timer (h : Inv blocks s lost) :
    ∃ gone : MsgClaims ι κ, gone.card = lost ∧ Ledger blocks s
      (s.timer.claims + (s.work.claims + (s.calls.map CallPc.claims).sum + gone)) := by
  obtain ⟨gone, hledger, hcard⟩ := h.ledger
  have hclaims : s.claims = s.timer.claims + (s.work.claims + (s.calls.map CallPc.claims).sum) := by
    unfold Sys.claims
    ac_rfl
  rw [hclaims, add_assoc] at hledger
  exact ⟨gone, hcard, hledger⟩

/-- The ledger as the working thread sees it. -/
theorem Inv.ledger_work (h : Inv blocks s lost) :
    ∃ gone : MsgClaims ι κ, gone.card = lost ∧ Ledger blocks s
      (s.work.claims + (s.timer.claims + (s.calls.map CallPc.claims).sum + gone)) := by
  obtain ⟨gone, hledger, hcard⟩ := h.ledger
  unfold Sys.claims at hledger
  rw [add_assoc] at hledger
  exact ⟨gone, hcard, hledger⟩

/-- The timer thread takes a step. -/
theorem Inv.step_timer (h : Inv blocks s lost) :
    ∃ t pc, s.timer.step s = some (t, pc) ∧ Inv blocks { t with timer := pc } lost := by
  obtain ⟨gone, rfl, hledger⟩ := h.ledger_timer
  obtain ⟨t, pc, heq, hmoved, hfuncs⟩ := TimerPc.moved s.timer hledger
  obtain ⟨hcalls, -, hwork⟩ := hmoved.frame
  obtain ⟨gone', hledger', hcard⟩ := hmoved.ledger rfl
  refine ⟨t, pc, heq, h.move ⟨gone', ?_, hcard⟩ hmoved.releases hmoved.taken ?_⟩
  · refine (congrArg (Ledger blocks _) ?_).mp (hledger'.congr rfl rfl rfl rfl)
    congr 1
    change _ = t.work.claims + (pc.claims + (t.calls.map CallPc.claims).sum)
    rw [hwork, hcalls]
    ac_rfl
  · have hmessages := hmoved.messages
    rw [List.nil_append] at hmessages
    change (t.hist.ran ++ (t.work.ran ++ (t.messages.filterMap ExMsg.func ++ pc.funcs))).Sublist
      (s.hist.ran ++ (s.work.ran ++ (s.messages.filterMap ExMsg.func ++ s.timer.funcs)))
    rw [hmoved.ran, hwork, ← hmessages, List.filterMap_append, List.append_nil, List.append_assoc]
    exact (((hfuncs.append_left _).append_left _).append_left _)

/-- A batch is taken: it goes behind everything else. -/
theorem Inv.step_expire (h : Inv blocks s lost) (hidle : s.timer = .idle) (cbs : List (Option κ)) :
    Inv blocks { s.take cbs with timer := .batch (jobs s.hist.taken.length cbs) } lost := by
  obtain ⟨gone, hledger, rfl⟩ := h.ledger
  have hline : s.line = s.hist.ran ++ (s.work.ran ++ s.messages.filterMap ExMsg.func) := by
    rw [Sys.line, hidle, TimerPc.funcs, List.append_nil]
  have hline' : ({ s.take cbs with timer := .batch (jobs s.hist.taken.length cbs) } : Sys ι κ).line =
      s.line ++ (jobs s.hist.taken.length cbs).reduceOption := by
    rw [hline]
    change s.hist.ran ++ (s.work.ran ++ (s.messages.filterMap ExMsg.func ++ _)) = _
    simp only [List.append_assoc]
    rfl
  refine ⟨⟨gone, ?_, rfl⟩, h.releases, ?_, ?_⟩
  · unfold Sys.claims at hledger
    rw [hidle] at hledger
    exact hledger.congr rfl rfl rfl rfl
  · rw [hline', List.pairwise_append]
    refine ⟨h.ordered, jobs_pairwise _ _, fun a ha b hb => Or.inl ?_⟩
    rw [(mem_jobs hb).1]
    exact (h.taken a ha).batch_lt
  · intro j hj
    rw [hline'] at hj
    change j.Taken (s.hist.taken ++ [cbs])
    rcases List.mem_append.mp hj with hj | hj
    · exact (h.taken j hj).append cbs
    · obtain ⟨hbatch, hindex⟩ := mem_jobs hj
      exact ⟨cbs, by rw [hbatch, List.getElem?_concat_length], hindex⟩

section Steps

variable [DecidableEq ι]

/-- The step loses a block. -/
def Sys.loses (s : Sys ι κ) : Act ι κ → Bool
  | .call k => (s.calls[k]?).any (CallPc.loses s)
  | _ => false

/-- A call takes a step. -/
theorem Inv.step_call (h : Inv blocks s lost) {k : Nat} {pc : CallPc ι} (hk : s.calls[k]? = some pc) :
    Inv blocks { (pc.step s).1 with calls := s.calls.set k (pc.step s).2 }
      (lost + (pc.loses s).toNat) := by
  obtain ⟨rest, gone, rfl, hledger, hset⟩ := h.ledger_call hk
  have hmoved := CallPc.moved pc hledger
  obtain ⟨-, htimer, hwork⟩ := hmoved.frame
  obtain ⟨gone', hledger', hcard⟩ := hmoved.ledger rfl
  refine h.move ⟨gone', ?_, hcard⟩ hmoved.releases hmoved.taken ?_
  · refine (congrArg (Ledger blocks _) ?_).mp (hledger'.congr rfl rfl rfl rfl)
    congr 1
    change _ = (pc.step s).1.work.claims + ((pc.step s).1.timer.claims +
      ((s.calls.set k (pc.step s).2).map CallPc.claims).sum)
    rw [hwork, htimer, hset]
    ac_rfl
  · have hmessages := hmoved.messages
    rw [List.nil_append] at hmessages
    change ((pc.step s).1.hist.ran ++ ((pc.step s).1.work.ran ++
      ((pc.step s).1.messages.filterMap ExMsg.func ++ (pc.step s).1.timer.funcs))).Sublist s.line
    rw [hmoved.ran, hwork, htimer, ← hmessages, List.filterMap_append, CallPc.sent_func,
      List.append_nil, List.append_nil]
    exact .refl _

/-- The working thread takes a step. -/
theorem Inv.step_work (h : Inv blocks s lost) :
    ∃ t pc, s.work.step s = some (t, pc) ∧ Inv blocks { t with work := pc } lost := by
  obtain ⟨gone, rfl, hledger⟩ := h.ledger_work
  obtain ⟨t, pc, heq, hmoved, hran⟩ := WorkPc.moved s.work hledger
  obtain ⟨hcalls, htimer, -⟩ := hmoved.frame
  obtain ⟨gone', hledger', hcard⟩ := hmoved.ledger rfl
  refine ⟨t, pc, heq, h.move ⟨gone', ?_, hcard⟩ hmoved.releases hmoved.taken ?_⟩
  · refine (congrArg (Ledger blocks _) ?_).mp (hledger'.congr rfl rfl rfl rfl)
    congr 1
    change _ = pc.claims + (t.timer.claims + (t.calls.map CallPc.claims).sum)
    rw [htimer, hcalls]
  · have hmessages := hmoved.messages
    rw [List.append_nil] at hmessages
    change (t.hist.ran ++ (pc.ran ++ (t.messages.filterMap ExMsg.func ++ t.timer.funcs))).Sublist
      (s.hist.ran ++ (s.work.ran ++ (s.messages.filterMap ExMsg.func ++ s.timer.funcs)))
    rw [hmoved.ran, htimer, hmessages, List.filterMap_append, hran]
    simp only [List.append_assoc]
    exact .refl _

/-- Every step is possible, and keeps the invariant. -/
theorem Inv.step (h : Inv blocks s lost) (a : Act ι κ) :
    ∃ s', s.next a = some s' ∧ Inv blocks s' (lost + (s.loses a).toNat) := by
  cases a with
  | put netif buf =>
    refine ⟨_, rfl, h.call_added _ rfl⟩
  | netifIn netif =>
    refine ⟨_, rfl, h.call_added _ rfl⟩
  | call k =>
    cases hk : s.calls[k]? with
    | none =>
      refine ⟨s, by rw [Sys.next, hk], ?_⟩
      rw [Sys.loses, hk]
      exact h
    | some pc =>
      refine ⟨_, by rw [Sys.next, hk], ?_⟩
      rw [Sys.loses, hk]
      exact h.step_call hk
  | expire cbs =>
    cases htimer : s.timer with
    | idle => exact ⟨_, by rw [Sys.next, htimer], h.step_expire htimer cbs⟩
    | batch cbs' => exact ⟨s, by rw [Sys.next, htimer], h⟩
    | pushMsg func msg cbs' => exact ⟨s, by rw [Sys.next, htimer], h⟩
    | release func msg cbs' => exact ⟨s, by rw [Sys.next, htimer], h⟩
  | timer =>
    obtain ⟨t, pc, heq, hinv⟩ := h.step_timer
    refine ⟨{ t with timer := pc }, ?_, hinv⟩
    rw [Sys.next, heq]
    rfl
  | work =>
    obtain ⟨t, pc, heq, hinv⟩ := h.step_work
    refine ⟨{ t with work := pc }, ?_, hinv⟩
    rw [Sys.next, heq]
    rfl

end Steps

/-! ## Runs -/

/-- A pool whose array is one of so many bytes, from a block size and a capacity. -/
def Allocatable (blockSize : Int32) (capacity : UInt32) : Prop :=
  ∃ bytes, Mem.mulInt blockSize (queueSize capacity).toInt32 = .ok bytes ∧ 0 ≤ bytes.toInt

theorem newMemBlock_eq_some_iff (pool : MsgPool) {blockSize : Int32} {capacity : UInt32}
    {q : Fifo MsgPtr} : newMemBlock pool blockSize capacity = some q ↔
      capacity ≠ 0 ∧ Allocatable blockSize capacity ∧
        q = Fifo.pushAll ⟨(queueSize capacity - 1).toNat, []⟩
          ((List.range (queueSize capacity).toInt32.toInt.toNat).map (MsgPtr.mk pool)) := by
  unfold newMemBlock newQueue Allocatable
  by_cases hzero : capacity = 0
  · simp [hzero]
  · cases hmul : Mem.mulInt blockSize (queueSize capacity).toInt32 with
    | error e => simp [hzero, hmul, Except.toOption]
    | ok bytes =>
      by_cases hneg : bytes.toInt < 0
      · simp [hzero, hmul, Except.toOption, hneg, Int.not_le.mpr hneg]
      · simp [hzero, hmul, Except.toOption, hneg, Int.not_lt.mp hneg, eq_comm]

theorem newMemBlock_spec {pool : MsgPool} {blockSize : Int32} {capacity : UInt32} {q : Fifo MsgPtr}
    (h : newMemBlock pool blockSize capacity = some q) :
    q.items.Nodup ∧ (∀ msg ∈ q.items, msg.pool = pool) ∧ q.items.length ≤ q.cap := by
  obtain ⟨-, -, rfl⟩ := (newMemBlock_eq_some_iff _).mp h
  generalize (queueSize capacity).toInt32.toInt.toNat = count
  have hsub := Fifo.items_pushAll_sublist ⟨(queueSize capacity - 1).toNat, []⟩
    ((List.range count).map (MsgPtr.mk pool))
  rw [List.nil_append] at hsub
  refine ⟨?_, fun msg hmsg => ?_, ?_⟩
  · refine (List.nodup_range.map ?_).sublist hsub
    intro a b hab
    exact congrArg MsgPtr.index hab
  · obtain ⟨index, -, rfl⟩ := List.mem_map.mp (hsub.subset hmsg)
    rfl
  · have hlen := Fifo.length_pushAll_le (q := ⟨(queueSize capacity - 1).toNat, []⟩)
      (Nat.zero_le _) ((List.range count).map (MsgPtr.mk pool))
    have hcap := Fifo.cap_pushAll ⟨(queueSize capacity - 1).toNat, []⟩
      ((List.range count).map (MsgPtr.mk pool))
    rw [hcap]
    exact hlen

/-- The blocks of both pools. -/
def Sys.stock (s : Sys ι κ) : List MsgPtr := s.memBlock.items ++ s.timerMemBlock.items

/-- The stack at the start: every block is in its own pool, and nobody has one. -/
structure Start (s : Sys ι κ) : Prop where
  nodup : ∀ pool, (s.pool pool).items.Nodup
  own : ∀ pool, ∀ msg ∈ (s.pool pool).items, msg.pool = pool
  room : ∀ pool, (s.pool pool).items.length ≤ (s.pool pool).cap
  msgQueue : s.msgQueue.items = []
  inQ : ∀ n, (s.inQ n).items = []
  calls : s.calls = []
  timer : s.timer = .idle
  work : s.work = .idle
  hist : s.hist = ⟨[], [], []⟩

/-- A size of zero keeps the stack from starting, and so does a pool whose size in bytes is no
`int`. -/
theorem create_isSome_iff (exmsgSize : Int32) (msgQueueSize timerMsgQueueSize netifInQueueSize : UInt32)
    (mem : MsgPtr → ExMsg ι κ) :
    (Sys.create exmsgSize msgQueueSize timerMsgQueueSize netifInQueueSize mem).isSome = true ↔
      (msgQueueSize ≠ 0 ∧ timerMsgQueueSize ≠ 0 ∧ netifInQueueSize ≠ 0) ∧
        Allocatable exmsgSize msgQueueSize ∧ Allocatable exmsgSize timerMsgQueueSize := by
  have hqueue : ∀ {α : Type} {size : UInt32} {q : Fifo α}, newQueue α size = some q ↔
      size ≠ 0 ∧ q = ⟨(queueSize size - 1).toNat, []⟩ := by
    intro α size q
    unfold newQueue
    by_cases hzero : size = 0
    · simp [hzero]
    · simp [hzero, eq_comm]
  unfold Sys.create
  constructor
  · intro h
    obtain ⟨s, h⟩ := Option.isSome_iff_exists.mp h
    obtain ⟨memBlock, hmain, h⟩ := Option.bind_eq_some_iff.mp h
    obtain ⟨timerMemBlock, htimer, h⟩ := Option.bind_eq_some_iff.mp h
    obtain ⟨msgQueue, -, h⟩ := Option.bind_eq_some_iff.mp h
    obtain ⟨inQ, hinQ, -⟩ := Option.bind_eq_some_iff.mp h
    obtain ⟨hmain, hbytes, -⟩ := (newMemBlock_eq_some_iff _).mp hmain
    obtain ⟨htimer, hbytes', -⟩ := (newMemBlock_eq_some_iff _).mp htimer
    exact ⟨⟨hmain, htimer, (hqueue.mp hinQ).1⟩, hbytes, hbytes'⟩
  · rintro ⟨⟨hmain, htimer, hinQ⟩, hbytes, hbytes'⟩
    have h₁ := (newMemBlock_eq_some_iff .main).mpr ⟨hmain, hbytes, rfl⟩
    have h₂ := (newMemBlock_eq_some_iff .timer).mpr ⟨htimer, hbytes', rfl⟩
    have h₃ := hqueue (α := MsgPtr).mpr ⟨hmain, rfl⟩
    have h₄ := hqueue (α := BufId).mpr ⟨hinQ, rfl⟩
    simp [h₁, h₂, h₃, h₄]

theorem create_start {exmsgSize : Int32} {msgQueueSize timerMsgQueueSize netifInQueueSize : UInt32}
    {mem : MsgPtr → ExMsg ι κ}
    (h : Sys.create exmsgSize msgQueueSize timerMsgQueueSize netifInQueueSize mem = some s) : Start s := by
  obtain ⟨memBlock, hmain, h⟩ := Option.bind_eq_some_iff.mp h
  obtain ⟨timerMemBlock, htimer, h⟩ := Option.bind_eq_some_iff.mp h
  obtain ⟨msgQueue, hqueue, h⟩ := Option.bind_eq_some_iff.mp h
  obtain ⟨inQ, hinQ, h⟩ := Option.bind_eq_some_iff.mp h
  obtain rfl := Option.some.inj h
  obtain ⟨hnodup, hown, hroom⟩ := newMemBlock_spec hmain
  obtain ⟨hnodup', hown', hroom'⟩ := newMemBlock_spec htimer
  have hempty : ∀ {α : Type} {size : UInt32} {q : Fifo α}, newQueue α size = some q → q.items = [] := by
    intro α size q hq
    unfold newQueue at hq
    split at hq
    · cases hq
    · cases hq
      rfl
  refine ⟨fun pool => ?_, fun pool => ?_, fun pool => ?_, hempty hqueue, fun _ => hempty hinQ, rfl,
    rfl, rfl, rfl⟩
  · cases pool with
    | main => exact hnodup
    | timer => exact hnodup'
  · cases pool with
    | main => exact hown
    | timer => exact hown'
  · cases pool with
    | main => exact hroom
    | timer => exact hroom'

theorem Start.places (h : Start s) : s.places = s.stock := by
  unfold Sys.places Sys.stock
  rw [h.msgQueue, h.work, h.timer, h.calls]
  simp [WorkPc.msg, TimerPc.msg]

theorem Start.stock_nodup (h : Start s) : s.stock.Nodup := by
  refine List.nodup_append.mpr ⟨h.nodup .main, h.nodup .timer, fun a ha b hb heq => ?_⟩
  have hmain := h.own .main a ha
  have htimer := h.own .timer b hb
  rw [heq, htimer] at hmain
  cases hmain

theorem Start.inv (h : Start s) : Inv (s.stock : Multiset MsgPtr) s 0 := by
  have hclaims : s.claims = 0 := by
    unfold Sys.claims
    rw [h.work, h.timer, h.calls]
    rfl
  have hline : s.line = [] := by
    unfold Sys.line Sys.messages
    rw [h.work, h.timer, h.msgQueue, h.hist]
    rfl
  refine ⟨⟨0, ⟨Multiset.coe_nodup.mpr h.stock_nodup, fun pool => ?_, ⟨?_, ?_⟩⟩, rfl⟩, ?_, ?_, ?_⟩
  · rw [Multiset.filter_coe, Multiset.coe_card, Sys.stock, List.filter_append, List.length_append]
    have hfilter : ∀ p, (s.pool p).items.filter (fun msg => decide (msg.pool = pool)) =
        if p = pool then (s.pool p).items else [] := by
      intro p
      by_cases hp : p = pool
      · rw [if_pos hp, List.filter_eq_self]
        intro msg hmsg
        exact decide_eq_true ((h.own p msg hmsg).trans hp)
      · rw [if_neg hp, List.filter_eq_nil_iff]
        intro msg hmsg
        rw [h.own p msg hmsg]
        simpa using hp
    have hmain := hfilter .main
    have htimer := hfilter .timer
    have hroom := h.room pool
    simp only [Sys.pool] at hmain htimer
    rw [hmain, htimer]
    cases pool with
    | main => exact hroom
    | timer =>
      rw [if_neg (by decide), if_pos rfl, List.length_nil, Nat.zero_add]
      exact hroom
  · rw [add_zero, fst_places, h.places]
  · intro c hc
    rw [hclaims, add_zero, add_zero, Sys.shelved, h.msgQueue, shelf, Multiset.coe_nil,
      Multiset.map_zero, add_zero] at hc
    rcases Multiset.mem_add.mp hc with hc | hc
    · obtain ⟨msg, hmsg, rfl⟩ := Multiset.mem_map.mp hc
      exact h.own .main msg hmsg
    · obtain ⟨msg, hmsg, rfl⟩ := Multiset.mem_map.mp hc
      exact h.own .timer msg hmsg
  · rw [h.hist]
    intro r hr
    cases hr
  · rw [hline]
    exact .nil
  · rw [hline]
    intro j hj
    cases hj

/-- In no two places, and not twice in one. -/
theorem Inv.places_nodup {blocks : Multiset MsgPtr} (h : Inv blocks s lost) : s.places.Nodup := by
  obtain ⟨gone, hledger, -⟩ := h.ledger
  have hle : (s.places : Multiset MsgPtr) ≤ blocks := by
    rw [← fst_places, ← hledger.held.cells, ← add_assoc]
    exact Multiset.map_le_map (Multiset.le_add_right _ _)
  exact Multiset.coe_nodup.mp (Multiset.nodup_of_le hle hledger.nodup)

/-- What is in a pool is of this pool. -/
theorem Inv.own {blocks : Multiset MsgPtr} (h : Inv blocks s lost) (pool : MsgPool) :
    ∀ msg ∈ (s.pool pool).items, msg.pool = pool := by
  intro msg hmsg
  obtain ⟨gone, hledger, -⟩ := h.ledger
  refine hledger.held.met (msg, .free pool) (Multiset.mem_add.mpr (Or.inl ?_))
  unfold Sys.shelved shelf
  cases pool with
  | main =>
    exact Multiset.mem_add.mpr (Or.inl (Multiset.mem_add.mpr (Or.inl
      (Multiset.mem_map.mpr ⟨msg, hmsg, rfl⟩))))
  | timer =>
    exact Multiset.mem_add.mpr (Or.inl (Multiset.mem_add.mpr (Or.inr
      (Multiset.mem_map.mpr ⟨msg, hmsg, rfl⟩))))

section Runs

variable [DecidableEq ι]

/-- **Every block has one owner and one pool, and every callback runs once
at most, in order**: a run of any calls, batches and steps from the start
goes through to its end. There no block is in two places, each pool holds
its own blocks only, every block that was given back belonged to the pool
it was given to, which had room for it, and the callbacks that ran are
different callbacks that were taken, in the order of the batches and of
each batch. -/
theorem one_owner {exmsgSize : Int32} {msgQueueSize timerMsgQueueSize netifInQueueSize : UInt32}
    {mem : MsgPtr → ExMsg ι κ} {s₀ : Sys ι κ}
    (h : Sys.create exmsgSize msgQueueSize timerMsgQueueSize netifInQueueSize mem = some s₀)
    (acts : List (Act ι κ)) :
    ∃ s, run Sys.next s₀ acts = some s ∧
      s.places.Nodup ∧ (∀ pool, ∀ msg ∈ (s.pool pool).items, msg.pool = pool) ∧
      (∀ r ∈ s.hist.releases, r.pool = r.msg.pool ∧ r.ok = true) ∧
      s.hist.ran.Pairwise Job.Before ∧ ∀ j ∈ s.hist.ran, j.Taken s.hist.taken := by
  have hstart := (create_start h).inv
  have hstep : ∀ (s : Sys ι κ) (a : Act ι κ), (∃ lost, Inv (s₀.stock : Multiset MsgPtr) s lost) →
      True → ∃ s', s.next a = some s' ∧ ∃ lost, Inv (s₀.stock : Multiset MsgPtr) s' lost := by
    rintro s a ⟨lost, hinv⟩ -
    obtain ⟨s', hnext, hinv'⟩ := hinv.step a
    exact ⟨s', hnext, _, hinv'⟩
  obtain ⟨s, hrun, lost, hinv⟩ := run_progress hstep acts s₀ ⟨0, hstart⟩
    (along_of_forall (p := fun _ => True) (fun _ _ => trivial) s₀)
  have hran : s.hist.ran.Sublist s.line := List.sublist_append_left _ _
  exact ⟨s, hrun, hinv.places_nodup, hinv.own, hinv.releases, hinv.ordered.sublist hran,
    fun j hj => hinv.taken j (hran.subset hj)⟩

/-- Sizes 2, 4 and 2: one block for announcements, three for callbacks, and
room for one message and for one packet. -/
def small : Sys Nat Nat where
  memBlock := ⟨1, [⟨.main, 0⟩]⟩
  timerMemBlock := ⟨3, [⟨.timer, 0⟩, ⟨.timer, 1⟩, ⟨.timer, 2⟩]⟩
  msgQueue := ⟨1, []⟩
  inQ := fun _ => ⟨1, []⟩
  mem := fun _ => .new
  calls := []
  timer := .idle
  work := .idle
  hist := ⟨[], [], []⟩

theorem small_create : Sys.create 40 2 4 2 (fun _ => .new) = some small := rfl

/-- A batch of three, one of them empty, with an announcement in between: the
last callback finds the queue full and is dropped. -/
def crowd : List (Act Nat Nat) :=
  [.expire [some 5, none, some 6], .netifIn 0, .timer, .timer, .work, .call 0, .work, .call 0,
    .work] ++ List.replicate 5 .timer ++ List.replicate 6 .work

theorem one_owner_crowd :
    ∃ s, run Sys.next small crowd = some s ∧ s.hist.ran = [⟨0, 0, 5⟩] ∧ s.places.Nodup ∧
      ∀ r ∈ s.hist.releases, r.pool = r.msg.pool ∧ r.ok = true := by
  obtain ⟨s, hrun, hnodup, -, hreleases, -⟩ := one_owner small_create crowd
  have hran : (run Sys.next small crowd).map (·.hist.ran) = some [⟨0, 0, 5⟩] := by decide +kernel
  rw [hrun] at hran
  exact ⟨s, hrun, Option.some.inj hran, hnodup, hreleases⟩

end Runs

end TinyTcp.Msg
