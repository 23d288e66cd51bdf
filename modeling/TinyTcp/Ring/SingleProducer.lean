/-
TinyTcp.Ring.SingleProducer — the ring queue with one producer.

When one thread only calls `push`, nothing has to be assumed about the
steps themselves: `sound_of_single` shows that every step is `Sound` in
the sense of `QueueInvariant`. The producer is the only one that moves the
two write indices, so the occupancy it computed from an old read index is
still an upper bound when it reserves (`ProducerOk`), and the index it
confirms is the one it reserved. What remains is the wrap of the read
index under a slow pop; it is excluded by bounding the index increments
during one call (`LoadsOk`).

`single_producer_fifo` reads the delivery in order off the invariant.
-/
import TinyTcp.Ring.QueueDelivery
import Mathlib.Data.Fintype.Basic

namespace TinyTcp.Ring

open TinyTcp.Lib

variable {ι α : Type}

/-! ## The assumptions on a run -/

def Label.isPush : Label α → Bool
  | .push _ => true
  | _ => false

/-- Only `producer` calls `push`, and during no call that is in progress
the indices were incremented `2 ^ 32 - size` times. -/
def OneProducer (producer : ι) (s : Sys ι α) (m : ι × Label α) : Prop :=
  (m.2.isPush = true → m.1 = producer) ∧
  ∀ t, s.pc t ≠ .idle → (s.hist.thread t).increments < 2 ^ 32 - s.mem.size.toNat

instance [Fintype ι] [DecidableEq ι] [DecidableEq α] (producer : ι) (s : Sys ι α)
    (m : ι × Label α) : Decidable (OneProducer producer s m) :=
  inferInstanceAs (Decidable ((_ = true → _ = _) ∧ ∀ _, _ → _))

/-! ## The invariant -/

/-- The accesses of `push`. -/
def Pc.isPush : Pc α → Bool
  | .pushLoadRead _ | .pushLoadWrite _ _ | .pushReserve _ _ | .pushStore _ _ | .pushConfirm _ _
  | .pushCount => true
  | _ => false

/-- What the one producer knows about the queue. -/
def ProducerOk (h : History ι α) (size : Nat) : Pc α → Prop
  | .pushLoadWrite _ r =>
      h.confirmed.length = h.pushes.length ∧
      ∃ n, r = UInt32.ofNat n ∧ n ≤ h.pops.length ∧ h.pushes.length < n + size
  | .pushReserve _ _ =>
      h.confirmed.length = h.pushes.length ∧ h.pushes.length + 1 < h.pops.length + size
  | .pushStore _ _ => h.confirmed.length + 1 = h.pushes.length
  | .pushConfirm data _ =>
      h.confirmed.length + 1 = h.pushes.length ∧ h.stored h.confirmed.length = true ∧
      h.pushes[h.confirmed.length]? = some data
  | _ => h.confirmed.length = h.pushes.length

/-- The pops since a pop loaded the read index are among the increments of
its call. -/
def LoadsOk (h : History ι α) (l : Local) : Pc α → Prop
  | .popLoadLast _ | .popReadSlot _ | .popAdvance _ _ => h.pops.length ≤ l.loadedAt + l.increments
  | _ => True

structure SingleInv (producer : ι) (s : Sys ι α) : Prop extends Inv s where
  others : ∀ t, t ≠ producer → (s.pc t).isPush = false
  producerOk : ProducerOk s.hist s.mem.size.toNat (s.pc producer)
  in_order : s.hist.confirmed = s.hist.pushes.take s.hist.confirmed.length
  loads : ∀ t, LoadsOk s.hist (s.hist.thread t) (s.pc t)

theorem init_single [Inhabited α] (producer : ι) {size : UInt32} (h1 : 1 ≤ size.toNat)
    (h31 : size.toNat ≤ 2 ^ 31) : SingleInv producer (Sys.init (α := α) ι size) where
  toInv := init_inv h1 h31
  others := fun _ _ => rfl
  producerOk := rfl
  in_order := rfl
  loads := fun _ => trivial

/-! ## Every step is sound -/

/-- An index that has not gone once around has not moved. -/
theorem loadedAt_eq {q : LockFreeRingQueue α} {h : History ι α} {l : Local} (ok : SharedOk q h)
    (hle : l.loadedAt ≤ h.pops.length) (hnear : h.pops.length ≤ l.loadedAt + l.increments)
    (hfew : l.increments < 2 ^ 32) (heq : q.readIndex = UInt32.ofNat l.loadedAt) :
    l.loadedAt = h.pops.length := by
  rw [ok.read] at heq
  exact ofNat_inj_of_near hle (by omega) heq.symm

/-- With room for one more reservation the full test fails. -/
theorem not_full_of_room {q : LockFreeRingQueue α} {h : History ι α} (ok : SharedOk q h)
    (hroom : h.pushes.length + 1 < h.pops.length + q.size.toNat) : q.full = false := by
  by_contra hfull
  have hslot : q.indexOfQueue (q.writeIndex + 1) = q.indexOfQueue q.readIndex := by
    simpa [LockFreeRingQueue.full] using hfull
  have hnext : q.writeIndex + 1 = UInt32.ofNat (h.pushes.length + 1) := by
    rw [ok.write, UInt32.ofNat_add]
    rfl
  rw [hnext, ok.read] at hslot
  have := ok.read_le
  have := ok.last_le
  have := and_mask_inj_of_near ok.size (by omega) hroom hslot.symm
  omega

theorem sound_of_single {producer : ι} {s : Sys ι α} {m : ι × Label α}
    (inv : SingleInv producer s) (hm : OneProducer producer s m) : Sound s m = true := by
  obtain ⟨t, l⟩ := m
  have hprod : (s.pc t).isPush = true → t = producer := by
    intro hpush
    by_contra hne
    rw [inv.others t hne] at hpush
    exact Bool.false_ne_true hpush
  unfold Sound
  split
  · rename_i data w hpc _
    obtain rfl := hprod (by rw [hpc]; rfl)
    have hok := inv.producerOk
    rw [hpc] at hok
    rw [not_full_of_room inv.toSharedOk hok.2]
    simp
  · rename_i data w hpc _
    obtain rfl := hprod (by rw [hpc]; rfl)
    have hok := inv.producerOk
    rw [hpc] at hok
    rw [hok.2.1]
    simp
  · rename_i r data hpc _
    have hthread := inv.threads t
    have hloads := inv.loads t
    rw [hpc] at hthread hloads
    obtain ⟨rfl, hle, -⟩ := hthread
    have hfew := hm.2 t (by rw [hpc]; simp)
    by_cases heq : s.mem.readIndex = UInt32.ofNat (s.hist.thread t).loadedAt
    · simp [loadedAt_eq inv.toSharedOk hle hloads (by omega) heq]
    · simp [heq]
  · rfl

/-! ## One step -/

theorem act_size {q q' : LockFreeRingQueue α} {pc pc' : Pc α} {l : Label α} {e : Event α}
    (hact : act q pc l = some (q', pc', e)) : q'.size = q.size := by
  cases act_iff_access.mp hact <;> rfl

/-- The producer's knowledge survives the steps of the consumers. -/
theorem ProducerOk.mono {h h' : History ι α} {size : Nat} {pc : Pc α} (ok : ProducerOk h size pc)
    (hpushes : h'.pushes = h.pushes) (hconfirmed : h'.confirmed = h.confirmed)
    (hstored : h'.stored = h.stored) (hpops : h.pops.length ≤ h'.pops.length) :
    ProducerOk h' size pc := by
  cases pc with
  | pushLoadWrite d r =>
    obtain ⟨heq, n, hr, hn, hroom⟩ := ok
    exact ⟨by rw [hpushes, hconfirmed, heq], n, hr, by omega, by rw [hpushes]; exact hroom⟩
  | pushReserve d w =>
    obtain ⟨heq, hroom⟩ := ok
    exact ⟨by rw [hpushes, hconfirmed, heq], by rw [hpushes]; omega⟩
  | _ => simpa only [ProducerOk, hpushes, hconfirmed, hstored] using ok

theorem LoadsOk.mono {h h' : History ι α} {l l' : Local} {pc : Pc α} (ok : LoadsOk h l pc)
    (hloaded : l'.loadedAt = l.loadedAt)
    (hpops : h'.pops.length + l.increments ≤ h.pops.length + l'.increments) :
    LoadsOk h' l' pc := by
  cases pc with
  | popLoadLast | popReadSlot | popAdvance =>
    have hle : h.pops.length ≤ l.loadedAt + l.increments := ok
    show h'.pops.length ≤ l'.loadedAt + l'.increments
    omega
  | _ => trivial

/-- A confirmation is made by a thread that is confirming. -/
theorem act_confirmed {q q' : LockFreeRingQueue α} {pc pc' : Pc α} {l : Label α} {d : α}
    (hact : act q pc l = some (q', pc', .confirmed d)) : ∃ w, pc = .pushConfirm d w := by
  cases act_iff_access.mp hact with
  | pushConfirm => exact ⟨_, rfl⟩

section Step

variable [DecidableEq ι]

/-- A thread that is not pushing neither starts to nor touches what pushes
leave in the record. -/
theorem act_of_not_push {q q' : LockFreeRingQueue α} {pc pc' : Pc α} {l : Label α} {e : Event α}
    (hact : act q pc l = some (q', pc', e)) (hpc : pc.isPush = false) (hl : l.isPush = false)
    (h : History ι α) (t : ι) :
    pc'.isPush = false ∧ (h.record t e).pushes = h.pushes ∧
      (h.record t e).confirmed = h.confirmed ∧ (h.record t e).stored = h.stored := by
  cases act_iff_access.mp hact with
  | callPush => exact absurd hl Bool.noConfusion
  | callPop | popLoadRead | popRefused | popLoadLast | popReadSlot | popAdvance | popRetry
  | popCount => exact ⟨rfl, rfl, rfl, rfl⟩
  | _ => exact absurd hpc Bool.noConfusion

/-- The producer's own steps. -/
theorem act_producerOk {s : Sys ι α} {t : ι} {l : Label α} (inv : Inv s)
    (ok : ProducerOk s.hist s.mem.size.toNat (s.pc t))
    {mem : LockFreeRingQueue α} {pc : Pc α} {e : Event α}
    (hact : act s.mem (s.pc t) l = some (mem, pc, e)) :
    ProducerOk (s.hist.record t e) s.mem.size.toNat pc := by
  have hthread := inv.threads t
  replace hact := act_iff_access.mp hact
  generalize s.pc t = pc₀ at hact hthread ok
  cases hact with
  | pushLoadRead data => exact ⟨ok, s.hist.pops.length, inv.read, Nat.le_refl _, inv.room⟩
  | pushLoadWrite data r hroom =>
    obtain ⟨heq, n, rfl, hn, hsize⟩ := ok
    refine ⟨heq, ?_⟩
    -- the write index has not moved since the read index was loaded
    have hlast : s.hist.pushes.length + 1 ≠ n + s.mem.size.toNat := by
      intro hfull
      refine hroom ?_
      have hnext : s.mem.writeIndex + 1 = UInt32.ofNat (s.hist.pushes.length + 1) := by
        rw [inv.write, UInt32.ofNat_add]
        rfl
      rw [hnext, hfull]
      exact (and_mask_eq_iff inv.size _ _).mpr (Nat.add_mod_right _ _)
    show s.hist.pushes.length + 1 < s.hist.pops.length + s.mem.size.toNat
    omega
  | pushReserve data =>
    show s.hist.confirmed.length + 1 = (s.hist.pushes ++ [data]).length
    simpa using ok.1
  | pushStore data w =>
    obtain ⟨-, hfree, hval⟩ := hthread
    -- the only unconfirmed push is the producer's own
    have hnumber : (s.hist.thread t).ticket = s.hist.confirmed.length := by
      have hge := inv.confirmed_le hfree
      have hlt := (List.getElem?_eq_some_iff.mp hval).1
      have hlast : s.hist.confirmed.length + 1 = s.hist.pushes.length := ok
      omega
    rw [hnumber] at hval
    refine ⟨ok, ?_, hval⟩
    show Function.update s.hist.stored (s.hist.thread t).ticket true s.hist.confirmed.length = true
    rw [hnumber, Function.update_self]
  | pushConfirm data =>
    show (s.hist.confirmed ++ [data]).length = s.hist.pushes.length
    simpa using ok.1
  | pushRefused | pushRetry => exact ok.1
  | _ => exact ok

/-- The confirmations follow the order of the reservations. -/
theorem act_in_order {producer : ι} {s : Sys ι α} (inv : SingleInv producer s) {t : ι}
    {l : Label α} {mem : LockFreeRingQueue α} {pc : Pc α} {e : Event α}
    (hact : act s.mem (s.pc t) l = some (mem, pc, e)) :
    (s.hist.record t e).confirmed
      = (s.hist.record t e).pushes.take (s.hist.record t e).confirmed.length := by
  cases e with
  | reserved data =>
    show s.hist.confirmed = (s.hist.pushes ++ [data]).take s.hist.confirmed.length
    rw [List.take_append_of_le_length inv.last_le]
    exact inv.in_order
  | confirmed data =>
    obtain ⟨w, hpc⟩ := act_confirmed hact
    have ht : t = producer := by
      by_contra hne
      have := inv.others t hne
      simp [hpc, Pc.isPush] at this
    subst ht
    have hok := inv.producerOk
    rw [hpc] at hok
    show s.hist.confirmed ++ [data] = s.hist.pushes.take (s.hist.confirmed ++ [data]).length
    rw [List.length_append, List.length_singleton, List.take_add_one, hok.2.2, ← inv.in_order]
    rfl
  | _ => exact inv.in_order

/-- A success of a pop is counted for every call in progress. -/
theorem record_loads (h : History ι α) {t u : ι} (hu : u ≠ t) (e : Event α) :
    (h.record t e).pops.length + (h.thread u).increments
      ≤ h.pops.length + ((h.record t e).thread u).increments := by
  cases e with
  | consumed data =>
    simp only [History.record, History.tick, List.length_append, List.length_singleton]
    omega
  | _ => simp [History.record, History.setLocal, History.tick, hu]

theorem act_loads {s : Sys ι α} {t : ι} {l : Label α}
    (ok : LoadsOk s.hist (s.hist.thread t) (s.pc t)) {mem : LockFreeRingQueue α} {pc : Pc α}
    {e : Event α} (hact : act s.mem (s.pc t) l = some (mem, pc, e)) :
    LoadsOk (s.hist.record t e) ((s.hist.record t e).thread t) pc := by
  replace hact := act_iff_access.mp hact
  generalize s.pc t = pc₀ at hact ok
  cases hact with
  | popLoadRead =>
    simp only [LoadsOk, History.record, History.setLocal, Function.update_self]
    omega
  | popLoadLast => exact ok
  | popReadSlot r =>
    simpa only [LoadsOk, History.record, History.setLocal, Function.update_self] using ok
  | _ => trivial

/-- **Every step with one producer preserves the invariant.** -/
theorem step_single {producer : ι} {s s' : Sys ι α} {m : ι × Label α}
    (inv : SingleInv producer s) (hm : OneProducer producer s m) (hstep : s.step m = some s') :
    SingleInv producer s' := by
  have hinv := step_inv inv.toInv (sound_of_single inv hm) hstep
  obtain ⟨t, l⟩ := m
  obtain ⟨mem, pc, e, hact, rfl⟩ := step_act hstep
  have hpushes : t ≠ producer → l.isPush = false := fun ht =>
    Bool.eq_false_iff.mpr fun hl => ht (hm.1 hl)
  refine { toInv := hinv, others := fun u hu => ?_, producerOk := ?_,
           in_order := act_in_order inv hact, loads := fun u => ?_ }
  · by_cases hut : u = t
    · subst hut
      simpa using (act_of_not_push hact (inv.others u hu) (hpushes hu) s.hist u).1
    · simpa [Function.update_of_ne hut] using inv.others u hu
  · rw [act_size hact]
    by_cases ht : t = producer
    · subst ht
      simpa using act_producerOk inv.toInv inv.producerOk hact
    · obtain ⟨-, hp, hc, hst⟩ :=
        act_of_not_push hact (inv.others t ht) (hpushes ht) s.hist t
      simpa [Function.update_of_ne (Ne.symm ht)] using
        inv.producerOk.mono hp hc hst (record_pops_le _ t e)
  · by_cases hut : u = t
    · subst hut
      simpa using act_loads (inv.loads u) hact
    · simpa [Function.update_of_ne hut] using
        (inv.loads u).mono (record_thread_other _ t e hut).2.2 (record_loads _ hut e)

end Step

/-! ## Delivery in order -/

/-- What one producer gets from the queue. -/
structure FifoDelivery [DecidableEq ι] (s : Sys ι α) : Prop where
  /-- the popped values are the first confirmed ones, in order -/
  in_order : s.hist.pops.map Prod.snd <+: s.hist.confirmed
  /-- the confirmations follow the order of the pushes -/
  push_order : s.hist.confirmed <+: s.hist.pushes
  /-- the pop number `i` read what the push number `i` had written -/
  written : ∀ (i : Nat) (p : Option Nat × α), s.hist.pops[i]? = some p →
    p.1 = some i ∧ s.hist.pushes[i]? = some p.2
  /-- the reserved and unconsumed elements leave one slot free -/
  bounded : s.hist.pushes.length - s.hist.pops.length ≤ s.mem.size.toNat - 1
  /-- no step writes to the slot of an unconsumed element -/
  kept : ∀ m s', s.step m = some s' → ∀ n, s.hist.pops.length ≤ n → s.hist.stored n = true →
    s'.mem.queue (s.mem.slot n) = s.mem.queue (s.mem.slot n)

theorem act_queue {q q' : LockFreeRingQueue α} {pc pc' : Pc α} {l : Label α} {e : Event α}
    (hact : act q pc l = some (q', pc', e)) (i : UInt32)
    (hi : ∀ d w, pc = .pushStore d w → q.indexOfQueue w ≠ i) : q'.queue i = q.queue i := by
  cases act_iff_access.mp hact with
  | pushStore d w => exact Function.update_of_ne (hi d w rfl).symm _ _
  | _ => rfl

variable [DecidableEq ι]

/-- A slot write goes to the slot of a push that has not stored yet. -/
theorem step_keeps_slots {s s' : Sys ι α} {m : ι × Label α} (inv : Inv s)
    (hstep : s.step m = some s') {n : Nat} (hn : s.hist.pops.length ≤ n)
    (hst : s.hist.stored n = true) :
    s'.mem.queue (s.mem.slot n) = s.mem.queue (s.mem.slot n) := by
  obtain ⟨mem, pc, e, hact, rfl⟩ := step_act hstep
  refine act_queue hact _ fun d w hpc heq => ?_
  have hthread := inv.threads m.1
  rw [hpc] at hthread
  obtain ⟨rfl, hfree, hval⟩ := hthread
  have hge := inv.confirmed_le hfree
  have hsame := inv.slot_inj (Nat.le_trans inv.read_le hge)
    (List.getElem?_eq_some_iff.mp hval).1 hn (inv.stored_lt n hst) heq
  rw [hsame, hst] at hfree
  exact Bool.false_ne_true hfree.symm

theorem fifo_of_single {producer : ι} {s : Sys ι α} (inv : SingleInv producer s) :
    FifoDelivery s where
  in_order := by
    rw [inv.pops_eq.2, inv.in_order]
    exact List.take_prefix_take_left inv.read_le
  push_order := by
    rw [inv.in_order]
    exact List.take_prefix _ _
  written := inv.popped
  bounded := by
    have := inv.room
    omega
  kept := fun _ _ hstep _ hn hst => step_keeps_slots inv.toInv hstep hn hst

/-- **One producer, any number of consumers**: delivery in order, without
loss, duplicate or unwritten slot, in every interleaving in which no call
lasts for too many index increments. -/
theorem single_producer_fifo [Inhabited α] {size : UInt32} (h1 : 1 ≤ size.toNat)
    (h31 : size.toNat ≤ 2 ^ 31) (producer : ι) (moves : List (ι × Label α)) (s : Sys ι α)
    (hone : Along Sys.step (OneProducer producer) (Sys.init ι size) moves)
    (hrun : run Sys.step (Sys.init ι size) moves = some s) : FifoDelivery s := by
  have hinv : SingleInv producer s :=
    run_induction (fun _ _ _ inv hm hstep => step_single inv hm hstep) moves _ s
      (init_single producer h1 h31) hone hrun
  exact fifo_of_single hinv

/-- Two pushes and two pops by three threads, with the pops in between. -/
theorem single_producer_fifo_three_threads :
    ∃ s, run Sys.step (Sys.init (Fin 3) 2)
        (pushMoves 0 10 ++ popMoves 1 ++ pushMoves 0 20 ++ popMoves 2) = some s ∧
      FifoDelivery (α := Nat) s := by
  obtain ⟨s, hrun⟩ := Option.isSome_iff_exists.mp (show (run Sys.step (Sys.init (Fin 3) 2)
    (pushMoves 0 10 ++ popMoves 1 ++ pushMoves 0 20 ++ popMoves (α := Nat) 2)).isSome = true
    by decide)
  exact ⟨s, hrun, single_producer_fifo (by decide) (by decide) 0 _ s (by decide) hrun⟩

end TinyTcp.Ring
