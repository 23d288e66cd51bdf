/-
TinyTcp.Net.Teardown — `INetIF::clear_in_queue` of `src/net/netif.cc` on a
thread of its own, beside the receive path.

The loop of `clear_in_queue` asks whether the in-queue is empty, pops, and
frees what its local pointer points to, in three steps; it does not look
at the result of `pop`. When the working thread takes the last packet
between the first two, the pointer still is what it was: never set, or the
packet of an earlier round, whose buffer may have a new packet by now.

A packet is a buffer with the number of times `get_pktbuffer` has given it
out. The fields `gen`, `drained`, `freed` and `linked` only record what
happened: the packets that the current call popped, those on which
`clear_in_queue` called `free`, and those handed to `link_in`.
`freesDrained_iff` says that it frees only what it drained exactly if its
`pop` never finds the queue empty.

`clear_out_queue` has the same loop; nothing here reads the out-queue.
-/
import TinyTcp.Net.RecvLeak

namespace TinyTcp.Net

open TinyTcp.Lib TinyTcp.Pkt

/-! ## clear_in_queue -/

/-- What `clear_in_queue` does next; in `call` it is about to call `pktbuf->free()`. -/
inductive ClearPc where
  | idle
  | test
  | pop
  | call
  | free (pc : FreePc)
  deriving DecidableEq, Repr

/-- A buffer, and the number of times it had been given out. -/
abbrev Packet := BufId × Nat

/-- The buffer that `recv_func` gets from the pool in its next step. -/
def RecvPc.fetches (s : Stack) : RecvPc → Option BufId
  | .start _ => s.mgr.pktBuf.items.head?
  | _ => none

/-- The packet that `do_netif_in` hands to `link_in` in its next step. -/
def WorkPc.hands : WorkPc → Option BufId
  | .linkIn buf => some buf
  | _ => none

def RecvPath.fetched (s : RecvPath) : RecvAct → Option BufId
  | .recv => s.recv.fetches s.toStack
  | _ => none

def RecvPath.handed (s : RecvPath) : RecvAct → Option BufId
  | .work => s.work.hands
  | _ => none

/-- `pktbuf` is the local pointer, `none` until it is set. -/
structure Teardown extends RecvPath where
  clear : ClearPc
  pktbuf : Option BufId
  gen : BufId → Nat
  drained : List Packet
  freed : List Packet
  linked : List Packet

/-- A step on the receive path, a call of `clear_in_queue`, or its next step. -/
inductive TeardownAct where
  | path (a : RecvAct)
  | deactivate
  | clear
  deriving DecidableEq, Repr

namespace Teardown

variable (s : Teardown)

def packet (x : BufId) : Packet := (x, s.gen x)

/-- The record of a step on the receive path. -/
def noted (a : RecvAct) (path : RecvPath) : Teardown :=
  { s with
    toRecvPath := path
    gen := (s.fetched a).elim s.gen fun x => Function.update s.gen x (s.gen x + 1)
    linked := (s.handed a).elim s.linked fun x => s.linked ++ [s.packet x] }

/-- The next step of `clear_in_queue`. -/
def execClear : Except Fault Teardown :=
  match s.clear with
  | .idle => .ok s
  | .test => .ok { s with clear := if s.netif.inQ.items.length ≠ 0 then .pop else .idle }
  | .pop =>
      match s.netif.inQ.pop with
      | none => .ok { s with clear := .call }
      | some (buf, inQ) =>
          .ok { s with
            netif := { s.netif with inQ := inQ }
            pktbuf := some buf
            drained := s.drained ++ [s.packet buf]
            clear := .call }
  | .call =>
      match s.pktbuf with
      -- the pointer has never been set
      | none => .error .nullDeref
      | some buf =>
          let (stack, pc) := (FreePc.enter buf).step s.toStack
          .ok { s with
            toStack := stack, freed := s.freed ++ [s.packet buf], clear := pc.elim .test .free }
  | .free pc =>
      let (stack, pc) := pc.step s.toStack
      .ok { s with toStack := stack, clear := pc.elim .test .free }

/-- A thread that is busy in `clear_in_queue` does not call it again. -/
def exec : TeardownAct → Except Fault Teardown
  | .path a => do
      let path ← s.toRecvPath.exec a
      .ok (s.noted a path)
  | .deactivate =>
      if s.clear = .idle then .ok { s with clear := .test, pktbuf := none, drained := [] }
      else .ok s
  | .clear => s.execClear

/-- A fault ends the run. -/
def next (s : Teardown) (a : TeardownAct) : Option Teardown := (s.exec a).toOption

/-! ## What is claimed, and when it holds -/

/-- What `clear_in_queue` is about to free is a packet that this call has popped and not
yet freed, and no packet has been both freed by it and handed to `link_in`. -/
def FreesDrained : Prop :=
  (s.clear = .call → ∃ buf, s.pktbuf = some buf ∧ s.packet buf ∈ s.drained ∧
    s.packet buf ∉ s.freed) ∧
  ∀ p ∈ s.freed, p ∉ s.linked

/-- The step is not a `pop` of `clear_in_queue` on an empty queue. -/
def PopsPacket (a : TeardownAct) : Prop :=
  a = .clear → s.clear = .pop → s.netif.inQ.items ≠ []

instance (s : Teardown) (a : TeardownAct) : Decidable (s.PopsPacket a) := by
  unfold PopsPacket
  infer_instance

end Teardown

/-! ## What a step does with the packets that wait -/

/-- The buffer of a packet that `recv_func` has not queued yet. -/
def RecvPc.making : RecvPc → Option BufId
  | .alloc buf _ _ _ => some buf
  | .put buf => some buf
  | _ => none

theorem FreePc.step_netif (s : Stack) (pc : FreePc) : (pc.step s).1.netif = s.netif := by
  cases pc with
  | enter buf => rfl
  | blocks buf =>
    unfold FreePc.step
    dsimp only
    split
    · rfl
    · rfl
  | clear buf => rfl

variable {s s' : Stack} {x : BufId}

/-- A packet waits after a step of `recv_func` if it did before, or its buffer was fetched. -/
theorem RecvPc.step_waits {pc pc' : RecvPc} (h : pc.step s = .ok (s', pc'))
    (hx : x ∈ s'.netif.inQ.items ∨ pc'.making = some x) :
    (x ∈ s.netif.inQ.items ∨ pc.making = some x) ∨ pc.fetches s = some x := by
  cases pc with
  | idle =>
    cases h
    exact Or.inl hx
  | start pktData =>
    unfold RecvPc.step at h
    cases hpool : s.mgr.pktBuf.items with
    | nil =>
      rw [s.getPktbuffer_nil hpool] at h
      cases h
      exact Or.inl hx
    | cons buf pool =>
      rw [s.getPktbuffer_cons hpool] at h
      cases h
      rcases hx with hx | hx
      · exact Or.inl (Or.inl hx)
      · right
        rw [RecvPc.fetches, hpool, List.head?_cons]
        exact hx
  | alloc buf pktData size blkList =>
    cases size with
    | zero =>
      simp only [RecvPc.step, bind_eq_ok] at h
      obtain ⟨b₁, -, b₂, -, ⟨e, b₃⟩, -, h⟩ := h
      cases h
      exact Or.inl hx
    | succ size =>
      simp only [RecvPc.step, bind_eq_ok] at h
      obtain ⟨⟨ptr, m⟩, -, h⟩ := h
      cases ptr with
      | none =>
        cases h
        rcases hx with hx | hx
        · exact Or.inl (Or.inl hx)
        · cases hx
      | some blk =>
        cases h
        exact Or.inl hx
  | undo buf size blkList =>
    cases blkList with
    | nil =>
      cases h
      rcases hx with hx | hx
      · exact Or.inl (Or.inl hx)
      · cases hx
    | cons blk blkList =>
      cases h
      rcases hx with hx | hx
      · exact Or.inl (Or.inl hx)
      · cases hx
  | put buf =>
    left
    by_cases hroom : s.netif.inQ.items.length < s.netif.inQ.cap
    · obtain ⟨s₁, hstep, -, hnetif⟩ := RecvPc.step_put_room hroom buf
      rw [hstep] at h
      cases h
      rcases hx with hx | hx
      · rw [hnetif] at hx
        rcases List.mem_append.mp hx with hx | hx
        · exact Or.inl hx
        · right
          rw [RecvPc.making, List.mem_singleton.mp hx]
      · cases hx
    · rw [RecvPc.step_put_full hroom] at h
      cases h
      rcases hx with hx | hx
      · exact Or.inl hx
      · cases hx
  | free pc =>
    left
    have hnetif := pc.step_netif s
    rcases pc.step_eq s with ⟨pc₁, heq⟩ | heq
    · rw [RecvPc.step, heq] at h
      cases h
      rw [hnetif] at hx
      exact hx
    · rw [RecvPc.step, heq] at h
      cases h
      rw [hnetif] at hx
      exact hx

/-- After a step of `do_netif_in` it waits only if it was in the queue. -/
theorem WorkPc.step_waits {pc pc' : WorkPc} (h : pc.step s = .ok (s', pc'))
    (hx : x ∈ s'.netif.inQ.items ∨ pc'.hands = some x) : x ∈ s.netif.inQ.items := by
  cases pc with
  | idle =>
    cases h
    simpa [WorkPc.hands] using hx
  | loop =>
    cases h
    by_cases hempty : s.netif.inQ.items.length ≠ 0
    · rw [if_pos hempty] at hx
      simpa [WorkPc.hands] using hx
    · rw [if_neg hempty] at hx
      simpa [WorkPc.hands] using hx
  | get =>
    cases hitems : s.netif.inQ.items with
    | nil =>
      simp only [WorkPc.step, Stack.getBufFromInQueue, Fifo.pop, hitems, ok_bind] at h
      cases h
      rw [hitems] at hx
      simp [WorkPc.hands] at hx
    | cons buf rest =>
      simp only [WorkPc.step, Stack.getBufFromInQueue, Fifo.pop, hitems, bind_eq_ok] at h
      obtain ⟨⟨e, s₁⟩, ⟨b, -, h₁⟩, h⟩ := h
      cases h₁
      cases h
      rcases hx with hx | hx
      · exact List.mem_cons_of_mem _ hx
      · rw [WorkPc.hands, Option.some.injEq] at hx
        rw [hx]
        exact List.mem_cons_self
  | linkIn buf =>
    simp only [WorkPc.step, bind_eq_ok] at h
    obtain ⟨⟨e, b, gone⟩, -, h⟩ := h
    cases h
    simpa [WorkPc.hands] using hx
  | cont buf gone =>
    cases gone with
    | nil =>
      cases h
      simpa [WorkPc.hands] using hx
    | cons ptr gone =>
      cases h
      rcases hx with hx | hx
      · exact hx
      · cases hx
  | check buf =>
    rw [WorkPc.step] at h
    split at h
    · cases h
      simpa [WorkPc.hands] using hx
    · rw [bind_eq_ok] at h
      obtain ⟨bytes, -, h⟩ := h
      cases h
      simpa [WorkPc.hands] using hx
  | free pc =>
    have hnetif := pc.step_netif s
    rcases pc.step_eq s with ⟨pc₁, heq⟩ | heq
    · rw [WorkPc.step, heq] at h
      cases h
      rw [hnetif] at hx
      simpa [WorkPc.hands] using hx
    · rw [WorkPc.step, heq] at h
      cases h
      rw [hnetif] at hx
      simpa [WorkPc.hands] using hx

theorem WorkPc.eq_of_hands {pc : WorkPc} (h : pc.hands = some x) : pc = .linkIn x := by
  cases pc with
  | linkIn buf => rw [WorkPc.hands, Option.some.injEq] at h; rw [h]
  | _ => cases h

theorem RecvPc.claims_of_making {pc : RecvPc} (h : pc.making = some x) :
    ∃ u, (x, u) ∈ pc.claims := by
  cases pc with
  | alloc buf pktData size blkList =>
    rw [RecvPc.making, Option.some.injEq] at h
    rw [← h]
    exact ⟨_, Multiset.mem_singleton_self _⟩
  | put buf =>
    rw [RecvPc.making, Option.some.injEq] at h
    rw [← h]
    exact ⟨_, Multiset.mem_singleton_self _⟩
  | _ => cases h

theorem Stack.mem_shelved_of_queued (h : x ∈ s.netif.inQ.items) :
    (x, Stage.parcel) ∈ s.shelved :=
  Multiset.mem_add.mpr (Or.inr (Multiset.mem_map_of_mem _ h))

/-! ## The receive path beside other threads -/

namespace RecvPath

variable {B : Nat} {live : Finset BufId} {total : Multiset Nat} {rest rest' : BufClaims}
  {s t : RecvPath} {s' : Stack} {a : RecvAct} {x y : BufId} {u : Stage}

/-- The books are in order when others have `rest`, whatever has been lost. -/
def Beside (B : Nat) (live : Finset BufId) (total : Multiset Nat) (rest : BufClaims)
    (s : RecvPath) : Prop := ∃ n, Shared B live total rest s n

/-- A step of the receive path. -/
theorem Beside.of_exec (h : Beside B live total rest s) (hexec : s.exec a = .ok t) :
    Beside B live total rest t := by
  obtain ⟨n, h⟩ := h
  rcases exec_shared h a with ⟨t', heq, hshared⟩ | ⟨-, f, heq⟩
  · rw [hexec] at heq
    cases heq
    exact ⟨_, hshared⟩
  · rw [hexec] at heq
    cases heq

/-- Another thread takes a step. -/
theorem Beside.of_books (h : Beside B live total rest s)
    (hstep : ∀ claims loose, Books B live total s.toStack (rest + claims) loose →
      Books B live total s' (rest' + claims) loose) :
    Beside B live total rest' { s with toStack := s' } := by
  obtain ⟨n, ⟨lost, hbooks, hn⟩, hrecv, hwork⟩ := h
  exact ⟨n, ⟨lost, hstep _ _ hbooks, hn⟩, hrecv, hwork⟩

/-- The packet is being made, in the queue, or about to be handed to `link_in`. -/
def Awaits (s : RecvPath) (x : BufId) : Prop :=
  (x ∈ s.netif.inQ.items ∨ s.recv.making = some x) ∨ s.work.hands = some x

theorem awaits_of_handed (hx : s.handed a = some x) : s.Awaits x := by
  cases a with
  | work => exact Or.inr hx
  | _ => cases hx

/-- A buffer from the pool is nobody's. -/
theorem Beside.ne_of_fetched (h : Beside B live total rest s) (hx : s.fetched a = some x)
    (hy : (y, u) ∈ rest) : y ≠ x := by
  obtain ⟨n, ⟨lost, hbooks, -⟩, -, -⟩ := h
  cases a with
  | recv =>
    cases hpc : s.recv with
    | start pktData =>
      rw [fetched, hpc, RecvPc.fetches] at hx
      obtain ⟨pool, hpool⟩ := List.head?_eq_some_iff.mp hx
      refine (hbooks.popBuf hpool).held_cons.ne_of_mem live.nodup (c := (y, u)) ?_
      exact Multiset.mem_add.mpr (Or.inr (Multiset.mem_add.mpr (Or.inl hy)))
    | _ => rw [fetched, hpc] at hx; cases hx
  | _ => cases hx

/-- The packet for `link_in` is nobody else's, and not in the queue. -/
theorem Beside.ne_of_handed (h : Beside B live total rest s) (hx : s.handed a = some x)
    (hy : (y ∈ s.netif.inQ.items ∨ s.recv.making = some y) ∨ ∃ u, (y, u) ∈ rest) : y ≠ x := by
  obtain ⟨n, ⟨lost, hbooks, -⟩, -, -⟩ := h
  cases a with
  | work =>
    have hpc : s.work = .linkIn x := WorkPc.eq_of_hands hx
    have hperm : rest + (s.recv.claims + (s.work.claims + lost)) =
        (x, .parcel) ::ₘ (rest + (s.recv.claims + lost)) := by
      rw [hpc, WorkPc.claims, ← Multiset.singleton_add]
      abel
    rw [hperm] at hbooks
    obtain ⟨v, hv⟩ : ∃ v, (y, v) ∈ s.shelved + (rest + (s.recv.claims + lost)) := by
      simp only [Multiset.mem_add]
      rcases hy with (hy | hy) | ⟨u, hy⟩
      · exact ⟨_, Or.inl (Stack.mem_shelved_of_queued hy)⟩
      · obtain ⟨v, hv⟩ := RecvPc.claims_of_making hy
        exact ⟨v, Or.inr (Or.inr (Or.inl hv))⟩
      · exact ⟨u, Or.inr (Or.inl hy)⟩
    exact hbooks.held_cons.ne_of_mem live.nodup hv
  | _ => cases hx

/-- What another thread has is not a packet that waits. -/
theorem Beside.ne_of_awaits (h : Beside B live total {(x, u)} s) (hy : s.Awaits y) : y ≠ x := by
  obtain ⟨n, ⟨lost, hbooks, -⟩, -, -⟩ := h
  rw [Multiset.singleton_add] at hbooks
  obtain ⟨v, hv⟩ : ∃ v, (y, v) ∈ s.shelved + (s.recv.claims + (s.work.claims + lost)) := by
    simp only [Multiset.mem_add]
    rcases hy with (hy | hy) | hy
    · exact ⟨_, Or.inl (Stack.mem_shelved_of_queued hy)⟩
    · obtain ⟨v, hv⟩ := RecvPc.claims_of_making hy
      exact ⟨v, Or.inr (Or.inl hv)⟩
    · rw [WorkPc.eq_of_hands hy]
      exact ⟨_, Or.inr (Or.inr (Or.inl (Multiset.mem_singleton_self _)))⟩
  exact hbooks.held_cons.ne_of_mem live.nodup hv

/-- After a step a packet waits if it did before and was not handed to `link_in`, or if
its buffer was fetched. -/
theorem exec_awaits (h : Beside B live total rest s) (hexec : s.exec a = .ok t)
    (hx : t.Awaits x) : s.fetched a = some x ∨ s.Awaits x ∧ s.handed a ≠ some x := by
  cases a with
  | capture pktData =>
    right
    rw [exec] at hexec
    split at hexec
    · cases hexec
      rcases hx with (hx | hx) | hx
      · exact ⟨Or.inl (Or.inl hx), by simp [handed]⟩
      · cases hx
      · exact ⟨Or.inr hx, by simp [handed]⟩
    · cases hexec
      exact ⟨hx, by simp [handed]⟩
  | netifIn =>
    right
    rw [exec] at hexec
    split at hexec
    · cases hexec
      rcases hx with hx | hx
      · exact ⟨Or.inl hx, by simp [handed]⟩
      · cases hx
    · cases hexec
      exact ⟨hx, by simp [handed]⟩
  | recv =>
    simp only [exec, bind_eq_ok] at hexec
    obtain ⟨⟨s₁, pc⟩, hstep, hexec⟩ := hexec
    cases hexec
    rcases hx with hx | hx
    · rcases RecvPc.step_waits hstep hx with hx | hx
      · exact Or.inr ⟨Or.inl hx, by simp [handed]⟩
      · exact Or.inl hx
    · exact Or.inr ⟨Or.inr hx, by simp [handed]⟩
  | work =>
    simp only [exec, bind_eq_ok] at hexec
    obtain ⟨⟨s₁, pc⟩, hstep, hexec⟩ := hexec
    cases hexec
    have hwaits : x ∈ s.netif.inQ.items ∨ s.recv.making = some x := by
      rcases hx with (hx | hx) | hx
      · exact Or.inl (WorkPc.step_waits hstep (Or.inl hx))
      · exact Or.inr hx
      · exact Or.inl (WorkPc.step_waits hstep (Or.inr hx))
    exact Or.inr ⟨Or.inl hwaits, fun hhanded => h.ne_of_handed hhanded (Or.inl hwaits) rfl⟩

end RecvPath

/-! ## What holds in a run -/

/-- What `clear_in_queue` has. -/
def ClearPc.claims (pktbuf : Option BufId) : ClearPc → BufClaims
  | .call => pktbuf.elim 0 fun buf => {(buf, .parcel)}
  | .free pc => pc.claims
  | _ => 0

theorem ClearPc.claims_elim (pktbuf : Option BufId) (pc : Option FreePc) :
    ClearPc.claims pktbuf (pc.elim .test .free) = pc.elim 0 FreePc.claims := by
  cases pc with
  | none => rfl
  | some pc => rfl

namespace Teardown

variable {B : Nat} {live : Finset BufId} {total : Multiset Nat} {s s' : Teardown}
  {path : RecvPath} {a : RecvAct} {x : BufId} {p : Packet}

/-- A packet that nobody has freed or handed over. -/
def Waits (s : Teardown) (x : BufId) : Prop :=
  s.Awaits x ∨ s.clear = .call ∧ s.pktbuf = some x

structure Inv (B : Nat) (live : Finset BufId) (total : Multiset Nat) (s : Teardown) : Prop where
  beside : s.Beside B live total (s.clear.claims s.pktbuf)
  new : ∀ x, s.Waits x → s.packet x ∉ s.freed ∧ s.packet x ∉ s.linked
  old : ∀ p, p ∈ s.freed ∨ p ∈ s.linked → p.2 ≤ s.gen p.1
  done : ∀ p ∈ s.drained, p ∈ s.freed ∨
    s.clear = .call ∧ ∃ buf, s.pktbuf = some buf ∧ p = s.packet buf

/-! ## A step on the receive path -/

theorem packet_noted (path : RecvPath) (hne : s.fetched a ≠ some x) : (s.noted a path).packet x = s.packet x := by
  unfold packet noted
  cases hf : s.fetched a with
  | none => rfl
  | some y =>
    have hxy : x ≠ y := by
      rintro rfl
      exact hne hf
    simp only [Option.elim_some, Function.update_of_ne hxy]

theorem packet_noted_of_fetched (path : RecvPath) (hx : s.fetched a = some x) :
    (s.noted a path).packet x = (x, s.gen x + 1) := by
  unfold packet noted
  simp only [hx, Option.elim_some, Function.update_self]

theorem gen_le_noted (x : BufId) : s.gen x ≤ (s.noted a path).gen x := by
  by_cases hx : s.fetched a = some x
  · have heq := congrArg Prod.snd (packet_noted_of_fetched path hx)
    change (s.noted a path).gen x = s.gen x + 1 at heq
    omega
  · exact (congrArg Prod.snd (packet_noted path hx)).ge

theorem mem_linked_noted :
    p ∈ (s.noted a path).linked ↔ p ∈ s.linked ∨ ∃ x, s.handed a = some x ∧ p = s.packet x := by
  unfold noted
  cases hh : s.handed a with
  | none => simp
  | some y => simp

theorem claims_of_call (hcall : s.clear = .call) (hbuf : s.pktbuf = some x) :
    s.clear.claims s.pktbuf = {(x, .parcel)} := by
  rw [hcall, hbuf]
  rfl

/-- The packet that `clear_in_queue` is about to free is not touched. -/
theorem ne_of_call (h : Inv B live total s) (hcall : s.clear = .call) (hbuf : s.pktbuf = some x) :
    s.fetched a ≠ some x ∧ s.handed a ≠ some x := by
  have hclaim : (x, Stage.parcel) ∈ s.clear.claims s.pktbuf := by
    rw [claims_of_call hcall hbuf]
    exact Multiset.mem_singleton_self _
  exact ⟨fun hx => h.beside.ne_of_fetched hx hclaim rfl,
    fun hx => h.beside.ne_of_handed hx (Or.inr ⟨_, hclaim⟩) rfl⟩

/-- A packet that waits after a step is a new one, or is what it was. -/
theorem waits_noted (h : Inv B live total s) (hexec : s.toRecvPath.exec a = .ok path)
    (hx : (s.noted a path).Waits x) :
    s.fetched a = some x ∨ s.Waits x ∧ s.handed a ≠ some x := by
  rcases hx with hx | ⟨hcall, hbuf⟩
  · rcases RecvPath.exec_awaits h.beside hexec hx with hx | ⟨hx, hne⟩
    · exact Or.inl hx
    · exact Or.inr ⟨Or.inl hx, hne⟩
  · exact Or.inr ⟨Or.inr ⟨hcall, hbuf⟩, (ne_of_call h hcall hbuf).2⟩

/-- **Step** on the receive path. -/
theorem noted_inv (h : Inv B live total s) (hexec : s.toRecvPath.exec a = .ok path) :
    Inv B live total (s.noted a path) := by
  refine ⟨h.beside.of_exec hexec, ?_, ?_, ?_⟩
  · intro x hx
    rw [mem_linked_noted]
    by_cases hf : s.fetched a = some x
    · -- nothing has been recorded of the new packet
      rw [packet_noted_of_fetched path hf]
      have hfresh : ∀ p, p ∈ s.freed ∨ p ∈ s.linked → p ≠ (x, s.gen x + 1) := by
        rintro p hp rfl
        have hle := h.old _ hp
        exact absurd hle (by simp)
      refine ⟨fun hp => hfresh _ (Or.inl hp) rfl, ?_⟩
      rintro (hp | ⟨y, -, hy⟩)
      · exact hfresh _ (Or.inr hp) rfl
      · obtain ⟨rfl, hgen⟩ := Prod.mk.inj hy
        omega
    · rw [packet_noted path hf]
      rcases waits_noted h hexec hx with hx | ⟨hx, hne⟩
      · exact absurd hx hf
      · refine ⟨(h.new x hx).1, ?_⟩
        rintro (hp | ⟨y, hhanded, hy⟩)
        · exact (h.new x hx).2 hp
        · obtain ⟨rfl, -⟩ := Prod.mk.inj hy
          exact hne hhanded
  · intro p hp
    rw [mem_linked_noted, ← or_assoc] at hp
    rcases hp with hp | ⟨y, -, rfl⟩
    · exact (h.old p hp).trans (gen_le_noted p.1)
    · exact gen_le_noted y
  · intro p hp
    rcases h.done p hp with hp | ⟨hcall, buf, hbuf, rfl⟩
    · exact Or.inl hp
    · exact Or.inr ⟨hcall, buf, hbuf, (packet_noted path (ne_of_call h hcall hbuf).1).symm⟩

theorem noted_freesDrained (h : Inv B live total s) (hp : s.FreesDrained) :
    (s.noted a path).FreesDrained := by
  refine ⟨?_, ?_⟩
  · intro hcall
    obtain ⟨buf, hbuf, hdrained⟩ := hp.1 hcall
    refine ⟨buf, hbuf, ?_⟩
    rw [packet_noted path (ne_of_call h hcall hbuf).1]
    exact hdrained
  · intro p hfreed
    rw [mem_linked_noted]
    rintro (hlinked | ⟨x, hx, rfl⟩)
    · exact hp.2 p hfreed hlinked
    · exact (h.new x (Or.inl (RecvPath.awaits_of_handed hx))).1 hfreed

/-! ## A step of clear_in_queue -/

/-- Outside of `call` the records are of packets that are freed. -/
theorem Inv.freed_of_drained (h : Inv B live total s) (hcall : s.clear ≠ .call) :
    ∀ p ∈ s.drained, p ∈ s.freed := by
  intro p hp
  rcases h.done p hp with hp | ⟨heq, -⟩
  · exact hp
  · exact absurd heq hcall

theorem awaits_of_waits (hcall : s.clear ≠ .call) (hx : s.Waits x) : s.Awaits x := by
  rcases hx with hx | ⟨heq, -⟩
  · exact hx
  · exact absurd heq hcall

theorem freesDrained_of_ne_call (hcall : s.clear ≠ .call) (h : ∀ p ∈ s.freed, p ∉ s.linked) :
    s.FreesDrained :=
  ⟨fun heq => absurd heq hcall, h⟩

/-- A step that neither pops nor calls `free`. -/
theorem Inv.of_netif (h : Inv B live total s) {stack : Stack} {pc : ClearPc}
    (hcall : s.clear ≠ .call) (hcall' : pc ≠ .call) (hnetif : stack.netif = s.netif)
    (hstep : ∀ claims loose, Books B live total s.toStack (s.clear.claims s.pktbuf + claims) loose →
      Books B live total stack (pc.claims s.pktbuf + claims) loose) :
    Inv B live total { s with toStack := stack, clear := pc } := by
  refine ⟨h.beside.of_books hstep, ?_, h.old, fun p hp => Or.inl (h.freed_of_drained hcall p hp)⟩
  intro x hx
  have hawaits := awaits_of_waits (s := { s with toStack := stack, clear := pc }) hcall' hx
  refine h.new x (Or.inl ?_)
  unfold RecvPath.Awaits at hawaits
  rw [hnetif] at hawaits
  exact hawaits

/-- `pop` on an empty queue: the pointer is not set, or is the one of a packet already freed. -/
theorem pop_empty (h : Inv B live total s) (hpc : s.clear = .pop) :
    ¬ ({ s with clear := .call } : Teardown).FreesDrained := by
  have hcall : s.clear ≠ .call := by
    rw [hpc]
    decide
  rintro ⟨hfrees, -⟩
  obtain ⟨buf, -, hdrained, hfreed⟩ := hfrees rfl
  exact hfreed (h.freed_of_drained hcall _ hdrained)

/-- `pop` of the first packet of the queue. -/
theorem pop_inv (h : Inv B live total s) (hp : s.FreesDrained) (hpc : s.clear = .pop) {buf : BufId}
    {rest : List BufId} (hitems : s.netif.inQ.items = buf :: rest)
    (hs' : s' = { s with
      netif := { s.netif with inQ := { s.netif.inQ with items := rest } }
      pktbuf := some buf
      drained := s.drained ++ [s.packet buf]
      clear := .call }) :
    Inv B live total s' ∧ s'.FreesDrained := by
  have hcall : s.clear ≠ .call := by
    rw [hpc]
    decide
  have hbuf : s.Waits buf := by
    refine Or.inl (Or.inl (Or.inl ?_))
    rw [hitems]
    exact List.mem_cons_self
  subst hs'
  refine ⟨⟨?_, ?_, h.old, ?_⟩, ?_, hp.2⟩
  · refine h.beside.of_books fun claims loose hbooks => ?_
    have hpop : ClearPc.claims s.pktbuf .pop = 0 := rfl
    rw [hpc, hpop, zero_add] at hbooks
    exact hbooks.dequeue hitems
  · intro x hx
    rcases hx with ((hx | hx) | hx) | ⟨-, hx⟩
    · refine h.new x (Or.inl (Or.inl (Or.inl ?_)))
      rw [hitems]
      exact List.mem_cons_of_mem _ hx
    · exact h.new x (Or.inl (Or.inl (Or.inr hx)))
    · exact h.new x (Or.inl (Or.inr hx))
    · obtain rfl := Option.some.inj hx
      exact h.new buf hbuf
  · intro p hp'
    rcases List.mem_append.mp hp' with hp' | hp'
    · exact Or.inl (h.freed_of_drained hcall p hp')
    · exact Or.inr ⟨rfl, buf, rfl, List.mem_singleton.mp hp'⟩
  · intro _
    exact ⟨buf, rfl, List.mem_append_right _ (List.mem_singleton_self _), (h.new buf hbuf).1⟩

/-- After the call of `free` on `buf`. -/
def called (s : Teardown) (buf : BufId) : Teardown :=
  { s with
    toStack := ((FreePc.enter buf).step s.toStack).1
    freed := s.freed ++ [s.packet buf]
    clear := ((FreePc.enter buf).step s.toStack).2.elim .test .free }

theorem called_clear_ne (s : Teardown) (buf : BufId) : (s.called buf).clear ≠ .call := by
  unfold called
  cases ((FreePc.enter buf).step s.toStack).2 with
  | none => exact ClearPc.noConfusion
  | some pc => exact ClearPc.noConfusion

theorem mem_freed_called {buf : BufId} :
    p ∈ (s.called buf).freed ↔ p ∈ s.freed ∨ p = s.packet buf := by
  simp [called]

theorem awaits_of_called {buf : BufId} (hx : (s.called buf).Waits x) : s.Awaits x := by
  have hawaits := awaits_of_waits (called_clear_ne s buf) hx
  unfold called RecvPath.Awaits at hawaits
  rw [FreePc.step_netif] at hawaits
  exact hawaits

/-- What was drained is freed. -/
theorem called_done (h : Inv B live total s) {buf : BufId} (hbuf : s.pktbuf = some buf) :
    ∀ p ∈ (s.called buf).drained, p ∈ (s.called buf).freed := by
  intro p hp
  rw [mem_freed_called]
  rcases h.done p hp with hp | ⟨-, buf', hbuf', rfl⟩
  · exact Or.inl hp
  · rw [hbuf, Option.some.injEq] at hbuf'
    rw [hbuf']
    exact Or.inr rfl

/-- The call of `free` on a packet that was popped. -/
theorem called_inv (h : Inv B live total s) (hp : s.FreesDrained) (hpc : s.clear = .call)
    {buf : BufId} (hbuf : s.pktbuf = some buf) :
    Inv B live total (s.called buf) ∧ (s.called buf).FreesDrained := by
  have hbeside := h.beside
  rw [claims_of_call hpc hbuf] at hbeside
  refine ⟨⟨?_, ?_, ?_, fun p hp' => Or.inl (called_done h hbuf p hp')⟩,
    freesDrained_of_ne_call (called_clear_ne s buf) ?_⟩
  · refine hbeside.of_books fun claims loose hbooks => ?_
    unfold called
    rw [ClearPc.claims_elim]
    exact (FreePc.enter buf).step_books hbooks
  · intro x hx
    have hawaits := awaits_of_called hx
    obtain ⟨hfreed, hlinked⟩ := h.new x (Or.inl hawaits)
    refine ⟨?_, hlinked⟩
    rw [mem_freed_called]
    rintro (hx' | hx')
    · exact hfreed hx'
    · exact hbeside.ne_of_awaits hawaits (congrArg Prod.fst hx')
  · intro p hp'
    rw [mem_freed_called, or_right_comm] at hp'
    rcases hp' with hp' | rfl
    · exact h.old p hp'
    · exact Nat.le_refl _
  · intro p hp'
    rw [mem_freed_called] at hp'
    rcases hp' with hp' | rfl
    · exact hp.2 p hp'
    · exact (h.new buf (Or.inr ⟨hpc, hbuf⟩)).2

/-- A call of `clear_in_queue`. -/
theorem deactivate_inv (h : Inv B live total s) (hp : s.FreesDrained) (hpc : s.clear = .idle) :
    Inv B live total { s with clear := .test, pktbuf := none, drained := [] } ∧
      ({ s with clear := .test, pktbuf := none, drained := [] } : Teardown).FreesDrained := by
  refine ⟨⟨?_, ?_, h.old, by simp⟩, freesDrained_of_ne_call ClearPc.noConfusion hp.2⟩
  · have hbeside := h.beside
    rw [hpc] at hbeside
    exact hbeside
  · intro x hx
    have hawaits := awaits_of_waits
      (s := { s with clear := .test, pktbuf := none, drained := [] }) ClearPc.noConfusion hx
    exact h.new x (Or.inl hawaits)

/-- **Step** of `clear_in_queue`. -/
theorem execClear_inv (h : Inv B live total s) (hp : s.FreesDrained)
    (hexec : s.execClear = .ok s') :
    (s.PopsPacket .clear → Inv B live total s') ∧ (s'.FreesDrained ↔ s.PopsPacket .clear) := by
  -- only `pop` has a condition
  have hother (hpc : s.clear ≠ .pop) (hinv : Inv B live total s' ∧ s'.FreesDrained) :
      (s.PopsPacket .clear → Inv B live total s') ∧ (s'.FreesDrained ↔ s.PopsPacket .clear) :=
    ⟨fun _ => hinv.1, iff_of_true hinv.2 fun _ heq => absurd heq hpc⟩
  cases hpc : s.clear with
  | idle =>
    rw [execClear, hpc] at hexec
    cases hexec
    exact hother (by rw [hpc]; decide) ⟨h, hp⟩
  | test =>
    rw [execClear, hpc] at hexec
    cases hexec
    have hcall : s.clear ≠ .call := by
      rw [hpc]
      decide
    have hcall' : (if s.netif.inQ.items.length ≠ 0 then ClearPc.pop else .idle) ≠ .call := by
      split <;> decide
    refine hother (by rw [hpc]; decide) ⟨h.of_netif hcall hcall' rfl fun claims loose hbooks => ?_,
      freesDrained_of_ne_call hcall' hp.2⟩
    rw [hpc] at hbooks
    split
    · exact hbooks
    · exact hbooks
  | pop =>
    cases hitems : s.netif.inQ.items with
    | nil =>
      rw [execClear, hpc] at hexec
      simp only [Fifo.pop, hitems] at hexec
      cases hexec
      have hnot : ¬ s.PopsPacket .clear := fun hpops => hpops rfl hpc hitems
      exact ⟨fun hpops => absurd hpops hnot, iff_of_false (pop_empty h hpc) hnot⟩
    | cons buf rest =>
      rw [execClear, hpc] at hexec
      simp only [Fifo.pop, hitems] at hexec
      cases hexec
      have hinv := pop_inv h hp hpc hitems rfl
      refine ⟨fun _ => hinv.1, iff_of_true hinv.2 fun _ _ => ?_⟩
      rw [hitems]
      exact List.cons_ne_nil _ _
  | call =>
    obtain ⟨buf, hbuf, -⟩ := hp.1 hpc
    rw [execClear, hpc] at hexec
    simp only [hbuf] at hexec
    have hcalled : s.called buf = s' := by
      rw [← Except.ok.inj hexec, called, hbuf]
    have hinv := called_inv h hp hpc hbuf
    rw [hcalled] at hinv
    exact hother (by rw [hpc]; decide) hinv
  | free pc =>
    rw [execClear, hpc] at hexec
    cases hexec
    have hcall : s.clear ≠ .call := by
      rw [hpc]
      exact ClearPc.noConfusion
    have hcall' : (pc.step s.toStack).2.elim ClearPc.test ClearPc.free ≠ .call := by
      cases (pc.step s.toStack).2 <;> exact ClearPc.noConfusion
    refine hother (by rw [hpc]; exact ClearPc.noConfusion)
      ⟨h.of_netif hcall hcall' (pc.step_netif _) fun claims loose hbooks => ?_,
        freesDrained_of_ne_call hcall' hp.2⟩
    rw [hpc] at hbooks
    change Books B live total (pc.step s.toStack).1 _ loose
    rw [ClearPc.claims_elim]
    exact pc.step_books hbooks

/-! ## The result -/

/-- Everything is in its pool, nothing has begun, and nothing is recorded. -/
structure Start (s : Teardown) : Prop where
  path : s.toRecvPath.Start
  idle : s.clear = .idle
  drained : s.drained = []
  freed : s.freed = []
  linked : s.linked = []

theorem Start.inv (h : Start s) :
    Inv s.mgr.blkSize ⟨s.mgr.pktBuf.items, h.path.nodup⟩ (addrs s.free : Multiset Nat) s := by
  refine ⟨?_, ?_, ?_, ?_⟩
  · rw [h.idle]
    exact ⟨0, RecvPath.inv_iff_shared.mp h.path.inv⟩
  · intro x _
    rw [h.freed, h.linked]
    exact ⟨List.not_mem_nil, List.not_mem_nil⟩
  · intro p hp
    rw [h.freed, h.linked] at hp
    rcases hp with hp | hp
    · cases hp
    · cases hp
  · intro p hp
    rw [h.drained] at hp
    cases hp

theorem Start.freesDrained (h : Start s) : s.FreesDrained := by
  refine ⟨fun hcall => ?_, fun p hp => ?_⟩
  · rw [h.idle] at hcall
    cases hcall
  · rw [h.freed] at hp
    cases hp

/-- A `pop` on an empty queue is always possible. -/
theorem popsPacket_of_stuck (s : Teardown) (act : TeardownAct) (hstuck : s.next act = none) :
    s.PopsPacket act := by
  rintro rfl hpc
  unfold next exec execClear at hstuck
  simp only [hpc] at hstuck
  split at hstuck
  · cases hstuck
  · cases hstuck

/-- **Step.** -/
theorem next_inv (h : Inv B live total s) (hp : s.FreesDrained) {act : TeardownAct}
    (hnext : s.next act = some s') :
    (s.PopsPacket act → Inv B live total s') ∧ (s'.FreesDrained ↔ s.PopsPacket act) := by
  have hexec : s.exec act = .ok s' := eq_ok_of_toOption hnext
  cases act with
  | path a =>
    simp only [exec, bind_eq_ok] at hexec
    obtain ⟨path, hpath, hexec⟩ := hexec
    cases hexec
    exact ⟨fun _ => noted_inv h hpath, iff_of_true (noted_freesDrained h hp) nofun⟩
  | deactivate =>
    rw [exec] at hexec
    split at hexec
    · rename_i hidle
      cases hexec
      have hinv := deactivate_inv h hp hidle
      exact ⟨fun _ => hinv.1, iff_of_true hinv.2 nofun⟩
    · cases hexec
      exact ⟨fun _ => h, iff_of_true hp nofun⟩
  | clear => exact execClear_inv h hp hexec

/-- **clear_in_queue.** In every run, each `free` is on a packet that the
call has popped and no packet is both freed and handed to `link_in`,
exactly if `pop` never finds the queue empty after `is_empty` has not. -/
theorem freesDrained_iff {s₀ : Teardown} (h₀ : Start s₀) (acts : List TeardownAct) :
    Always next FreesDrained s₀ acts ↔ Along next PopsPacket s₀ acts :=
  always_iff_along_of_stuck (fun s act _ _ => popsPacket_of_stuck s act)
    (fun _ _ _ h hp hnext => next_inv h hp hnext) acts s₀ h₀.inv h₀.freesDrained

/-- Two blocks of 16 bytes and two buffers, all in their pools. -/
def branch : Teardown where
  mgr := {
    blkSize := 16
    pktBlk := ⟨2, [some ⟨0, 0, 0, List.replicate 16 0⟩, some ⟨1, 0, 0, List.replicate 16 0⟩]⟩
    pktBuf := ⟨2, [0, 1]⟩ }
  bufs _ := PktBuffer.new
  netif := quietEther 2
  memBlock := ⟨1, [0]⟩
  msgQueue := ⟨1, []⟩
  recv := .idle
  work := .idle
  clear := .idle
  pktbuf := none
  gen _ := 0
  drained := []
  freed := []
  linked := []

theorem branch_start : Start branch where
  path := {
    sound := ⟨by decide, by decide, ⟨[⟨0, 0, 0, List.replicate 16 0⟩,
      ⟨1, 0, 0, List.replicate 16 0⟩], rfl, by decide⟩, by decide⟩
    nodup := by decide
    room := by decide
    blank := by decide
    quiet := by decide }
  idle := rfl
  drained := rfl
  freed := rfl
  linked := rfl

/-- A frame of three bytes arrives and is queued. -/
def arrive : List TeardownAct :=
  .path (.capture [1, 2, 3]) :: List.replicate 4 (.path .recv)

/-- Two packets wait; `clear_in_queue` frees the first one and sees the second one. -/
def halfway : List TeardownAct :=
  arrive ++ arrive ++ .deactivate :: List.replicate 7 .clear

/-- It frees the second one, too. -/
theorem freesDrained_two_packets :
    Always next FreesDrained branch (halfway ++ List.replicate 7 .clear) :=
  (freesDrained_iff branch_start _).mpr (by decide +kernel)

/-- The working thread takes the second packet first; the first buffer has
a new packet by then, and the working thread gets that one, too. -/
def overtaken : List TeardownAct :=
  halfway ++ .path .netifIn :: List.replicate 2 (.path .work) ++ .clear :: arrive ++
    .clear :: List.replicate 10 (.path .work)

/-- The new packet has not been drained; it is freed, and handed to `link_in`. -/
theorem not_freesDrained_overtaken :
    Start branch ∧
      (∃ s, run next branch overtaken = some s ∧
        (0, 2) ∉ s.drained ∧ (0, 2) ∈ s.freed ∧ (0, 2) ∈ s.linked) ∧
      ¬ Always next FreesDrained branch overtaken := by
  have hmap : (run next branch overtaken).map (fun s => (s.drained, s.freed, s.linked)) =
      some ([(0, 1)], [(0, 1), (0, 2)], [(1, 1), (0, 2)]) := by decide +kernel
  obtain ⟨s, hrun, hs⟩ := Option.map_eq_some_iff.mp hmap
  obtain ⟨hdrained, hfreed, hlinked⟩ : s.drained = [(0, 1)] ∧ s.freed = [(0, 1), (0, 2)] ∧
      s.linked = [(1, 1), (0, 2)] := by simpa using hs
  have hboth : ((0, 2) : Packet) ∈ s.freed ∧ (0, 2) ∈ s.linked := by
    rw [hfreed, hlinked]
    decide
  refine ⟨branch_start, ⟨s, hrun, ?_, hboth⟩, fun h => ?_⟩
  · rw [hdrained]
    decide
  · exact (h.of_run hrun).2 (0, 2) hboth.1 hboth.2

end Teardown

end TinyTcp.Net
