/-
TinyTcp.Ring.QueueInvariant — what holds in every state of the interleaved
queue as long as no step is one of three that the code does not exclude.

The invariant `Inv` reads the three indices as truncations of the numbers
of reservations, confirmations and successful pops in the record. Its
clause for one thread, `ThreadOk`, says what the stale local values of that
thread still mean: a read index loaded earlier tells something about the
present only as long as no pop has succeeded since (`loadedAt` is still
the number of pops).

`step_inv` preserves `Inv` under `Sound`, a condition on the state before
the step:

* a reservation is not made on a queue that is full by now (the full test
  used a read index loaded before the write index);
* a confirmation is not made while the push that reserved the next slot
  has not stored its value (a failed confirmation makes a push try again
  with somebody else's index);
* the read index is not advanced by a pop that loaded it before it went
  once around the `2 ^ 32` values.
-/
import TinyTcp.Ring.QueueTheorems

namespace TinyTcp.Ring

open TinyTcp.Lib

variable {ι α : Type}

/-! ## The condition on a step -/

/-- The step of `m` is none of the three the code does not exclude. -/
def Sound (s : Sys ι α) (m : ι × Label α) : Bool :=
  match s.pc m.1, m.2 with
  | .pushReserve _ w, .go => s.mem.writeIndex != w || !s.mem.full
  | .pushConfirm _ w, .go =>
      s.mem.lastWriteIndex != w || s.hist.stored s.hist.confirmed.length
  | .popAdvance r _, .go =>
      s.mem.readIndex != r || (s.hist.thread m.1).loadedAt == s.hist.pops.length
  | _, _ => true

/-! ## The invariant -/

/-- The slot of the push with number `n`. -/
def LockFreeRingQueue.slot (q : LockFreeRingQueue α) (n : Nat) : UInt32 :=
  q.indexOfQueue (UInt32.ofNat n)

/-- What the local values of a thread mean. -/
def ThreadOk (h : History ι α) (l : Local) : Pc α → Prop
  | .pushStore data w =>
      w = UInt32.ofNat l.ticket ∧ h.stored l.ticket = false ∧ h.pushes[l.ticket]? = some data
  | .popLoadLast r => r = UInt32.ofNat l.loadedAt ∧ l.loadedAt ≤ h.pops.length
  | .popReadSlot r =>
      r = UInt32.ofNat l.loadedAt ∧ l.loadedAt ≤ h.pops.length ∧
      (l.loadedAt = h.pops.length → h.pops.length < h.confirmed.length)
  | .popAdvance r data =>
      r = UInt32.ofNat l.loadedAt ∧ l.loadedAt ≤ h.pops.length ∧
      (l.loadedAt = h.pops.length →
        h.pops.length < h.confirmed.length ∧ l.source = some l.loadedAt ∧
        h.pushes[l.loadedAt]? = some data)
  | _ => True

/-- The invariant on memory and record. -/
structure SharedOk (q : LockFreeRingQueue α) (h : History ι α) : Prop where
  size : IsPowTwo q.size
  read : q.readIndex = UInt32.ofNat h.pops.length
  write : q.writeIndex = UInt32.ofNat h.pushes.length
  last : q.lastWriteIndex = UInt32.ofNat h.confirmed.length
  read_le : h.pops.length ≤ h.confirmed.length
  last_le : h.confirmed.length ≤ h.pushes.length
  room : h.pushes.length < h.pops.length + q.size.toNat
  stored_lt : ∀ n, h.stored n = true → n < h.pushes.length
  confirmed_stored : ∀ n, n < h.confirmed.length → h.stored n = true
  slots : ∀ n, h.pops.length ≤ n → h.stored n = true →
    h.writer (q.slot n) = some n ∧ h.pushes[n]? = some (q.queue (q.slot n))
  popped : ∀ (i : Nat) (p : Option Nat × α), h.pops[i]? = some p →
    p.1 = some i ∧ h.pushes[i]? = some p.2

structure Inv (s : Sys ι α) : Prop extends SharedOk s.mem s.hist where
  threads : ∀ t, ThreadOk s.hist (s.hist.thread t) (s.pc t)
  /-- two threads at their slot write hold different numbers -/
  storing : ∀ t u d d' w w', s.pc t = .pushStore d w → s.pc u = .pushStore d' w' →
    (s.hist.thread t).ticket = (s.hist.thread u).ticket → t = u

theorem init_inv [Inhabited α] {size : UInt32} (h1 : 1 ≤ size.toNat)
    (h31 : size.toNat ≤ 2 ^ 31) : Inv (Sys.init (α := α) ι size) where
  size := queueSize_isPowTwo h1 h31
  read := rfl
  write := rfl
  last := rfl
  read_le := Nat.le_refl _
  last_le := Nat.le_refl _
  room := by
    have := (queueSize_isPowTwo h1 h31).two_le
    simp only [Sys.init, History.empty, LockFreeRingQueue.create, List.length_nil]
    omega
  stored_lt := by intro n hn; simp [Sys.init, History.empty] at hn
  confirmed_stored := by intro n hn; simp [Sys.init, History.empty] at hn
  slots := by intro n _ hn; simp [Sys.init, History.empty] at hn
  popped := by intro i p hp; simp [Sys.init, History.empty] at hp
  threads := fun _ => trivial
  storing := by intro t u d d' w w' ht; simp [Sys.init] at ht

/-! ## Consequences -/

/-- Pushes whose slots coincide are a whole turn apart. -/
theorem SharedOk.slot_inj {q : LockFreeRingQueue α} {h : History ι α} (ok : SharedOk q h)
    {m n : Nat} (hm : h.pops.length ≤ m) (hm' : m < h.pushes.length)
    (hn : h.pops.length ≤ n) (hn' : n < h.pushes.length) (heq : q.slot m = q.slot n) : m = n := by
  have hroom := ok.room
  rcases Nat.le_total m n with hle | hle
  · exact and_mask_inj_of_near ok.size hle (by omega) heq
  · exact (and_mask_inj_of_near ok.size hle (by omega) heq.symm).symm

/-- A thread at its slot write has not been overtaken by the confirmations. -/
theorem SharedOk.confirmed_le {q : LockFreeRingQueue α} {h : History ι α} (ok : SharedOk q h)
    {n : Nat} (hn : h.stored n = false) : h.confirmed.length ≤ n := by
  by_contra hlt
  have := ok.confirmed_stored n (by omega)
  simp [hn] at this

/-- If the queue is not full now, one more reservation leaves room. -/
theorem SharedOk.room_of_not_full {q : LockFreeRingQueue α} {h : History ι α}
    (ok : SharedOk q h) (hfull : q.full = false) :
    h.pushes.length + 1 < h.pops.length + q.size.toNat := by
  by_contra hge
  have hroom := ok.room
  have hlast : h.pushes.length + 1 = h.pops.length + q.size.toNat := by omega
  have hslot : q.indexOfQueue (q.writeIndex + 1) = q.indexOfQueue q.readIndex := by
    have hnext : q.writeIndex + 1 = UInt32.ofNat (h.pushes.length + 1) := by
      rw [ok.write, UInt32.ofNat_add]
      rfl
    rw [hnext, ok.read]
    refine (and_mask_eq_iff ok.size _ _).mpr ?_
    rw [hlast, Nat.add_mod_right]
  simp [LockFreeRingQueue.full, hslot] at hfull

/-- A pop that finds the two indices apart has an element to take. -/
theorem SharedOk.read_lt {q : LockFreeRingQueue α} {h : History ι α} (ok : SharedOk q h)
    (hne : q.indexOfQueue q.lastWriteIndex ≠ q.indexOfQueue (UInt32.ofNat h.pops.length)) :
    h.pops.length < h.confirmed.length := by
  refine Nat.lt_of_le_of_ne ok.read_le fun heq => hne ?_
  rw [ok.last, heq]

/-! ## What the record keeps -/

section Record

variable [DecidableEq ι] (h : History ι α) (t : ι) (e : Event α)

theorem record_pushes {n : Nat} {v : α} (hn : h.pushes[n]? = some v) :
    (h.record t e).pushes[n]? = some v := by
  cases e with
  | reserved data =>
    obtain ⟨hlt, -⟩ := List.getElem?_eq_some_iff.mp hn
    show (h.pushes ++ [data])[n]? = some v
    rw [List.getElem?_append_left hlt, hn]
  | _ => exact hn

theorem record_pops_le : h.pops.length ≤ (h.record t e).pops.length := by
  cases e with
  | consumed data =>
    show h.pops.length ≤ (h.pops ++ [_]).length
    simp
  | _ => exact Nat.le_refl _

theorem record_confirmed_le : h.confirmed.length ≤ (h.record t e).confirmed.length := by
  cases e with
  | confirmed data =>
    show h.confirmed.length ≤ (h.confirmed ++ [data]).length
    simp
  | _ => exact Nat.le_refl _

/-- A slot write completes the push whose number the writer holds. -/
theorem record_stored {n : Nat} (hn : n ≠ (h.thread t).ticket) :
    (h.record t e).stored n = h.stored n := by
  cases e with
  | stored slot => exact Function.update_of_ne hn _ _
  | _ => rfl

theorem record_stored_of_ne (hne : ∀ slot, e ≠ .stored slot) (n : Nat) :
    (h.record t e).stored n = h.stored n := by
  cases e with
  | stored slot => exact absurd rfl (hne slot)
  | _ => rfl

/-- Up to the count of increments, a step records nothing for other threads. -/
theorem record_thread_other {u : ι} (hu : u ≠ t) :
    ((h.record t e).thread u).ticket = (h.thread u).ticket ∧
    ((h.record t e).thread u).source = (h.thread u).source ∧
    ((h.record t e).thread u).loadedAt = (h.thread u).loadedAt := by
  cases e <;> simp [History.record, History.setLocal, History.tick, hu]

end Record

/-- A thread's local values keep their meaning while the record grows. -/
theorem ThreadOk.mono {h h' : History ι α} {l l' : Local} {pc : Pc α} (ok : ThreadOk h l pc)
    (hl : l'.ticket = l.ticket ∧ l'.source = l.source ∧ l'.loadedAt = l.loadedAt)
    (hpushes : ∀ (n : Nat) (v : α), h.pushes[n]? = some v → h'.pushes[n]? = some v)
    (hpops : h.pops.length ≤ h'.pops.length)
    (hconfirmed : h.confirmed.length ≤ h'.confirmed.length)
    (hstored : ∀ d w, pc = .pushStore d w → h'.stored l.ticket = h.stored l.ticket) :
    ThreadOk h' l' pc := by
  obtain ⟨hticket, hsource, hloaded⟩ := hl
  cases pc with
  | pushStore data w =>
    obtain ⟨hw, hfree, hval⟩ := ok
    refine ⟨by rw [hticket, hw], ?_, ?_⟩
    · rw [hticket, hstored data w rfl, hfree]
    · rw [hticket]
      exact hpushes _ _ hval
  | popLoadLast r =>
    obtain ⟨hr, hle⟩ := ok
    exact ⟨by rw [hloaded, hr], by omega⟩
  | popReadSlot r =>
    obtain ⟨hr, hle, hready⟩ := ok
    refine ⟨by rw [hloaded, hr], by omega, fun heq => ?_⟩
    have := hready (by omega)
    omega
  | popAdvance r data =>
    obtain ⟨hr, hle, hready⟩ := ok
    refine ⟨by rw [hloaded, hr], by omega, fun heq => ?_⟩
    obtain ⟨hlt, hsrc, hval⟩ := hready (by omega)
    rw [hloaded, hsource]
    exact ⟨by omega, hsrc, hpushes _ _ hval⟩
  | _ => trivial

/-! ## The accesses that change the memory -/

section Access

variable [DecidableEq ι] {q : LockFreeRingQueue α} {h : History ι α} {t : ι}

theorem shared_reserved (ok : SharedOk q h) (hfull : q.full = false) (data : α) :
    SharedOk { q with writeIndex := q.writeIndex + 1 } (h.record t (.reserved data)) where
  size := ok.size
  read := ok.read
  write := by
    show q.writeIndex + 1 = UInt32.ofNat (h.pushes ++ [data]).length
    rw [ok.write, List.length_append, UInt32.ofNat_add]
    rfl
  last := ok.last
  read_le := ok.read_le
  last_le := by
    show h.confirmed.length ≤ (h.pushes ++ [data]).length
    have := ok.last_le
    simp only [List.length_append]
    omega
  room := by
    show (h.pushes ++ [data]).length < h.pops.length + q.size.toNat
    have := ok.room_of_not_full hfull
    simpa using this
  stored_lt := by
    intro n hn
    show n < (h.pushes ++ [data]).length
    have := ok.stored_lt n hn
    simp only [List.length_append]
    omega
  confirmed_stored := ok.confirmed_stored
  slots := by
    intro n hle hn
    obtain ⟨hwriter, hval⟩ := ok.slots n hle hn
    exact ⟨hwriter, record_pushes h t (.reserved data) hval⟩
  popped := by
    intro i p hp
    obtain ⟨htag, hval⟩ := ok.popped i p hp
    exact ⟨htag, record_pushes h t (.reserved data) hval⟩

/-- The slot write of the push that holds the number `n`. -/
theorem shared_stored (ok : SharedOk q h) {data : α} {n : Nat} (hn : n = (h.thread t).ticket)
    (hfree : h.stored n = false) (hval : h.pushes[n]? = some data) :
    SharedOk { q with queue := Function.update q.queue (q.slot n) data }
      (h.record t (.stored (q.slot n))) where
  size := ok.size
  read := ok.read
  write := ok.write
  last := ok.last
  read_le := ok.read_le
  last_le := ok.last_le
  room := ok.room
  stored_lt := by
    intro m hm
    by_cases hmn : m = n
    · subst hmn
      exact (List.getElem?_eq_some_iff.mp hval).1
    · rw [record_stored h t _ (by omega)] at hm
      exact ok.stored_lt m hm
  confirmed_stored := by
    intro m hm
    have hmn : m ≠ n := by
      have := ok.confirmed_le hfree
      have : m < h.confirmed.length := hm
      omega
    rw [record_stored h t _ (by omega)]
    exact ok.confirmed_stored m hm
  slots := by
    intro m hle hm
    show Function.update h.writer (q.slot n) (some (h.thread t).ticket) (q.slot m) = some m ∧
      h.pushes[m]? = some (Function.update q.queue (q.slot n) data (q.slot m))
    by_cases hmn : m = n
    · subst hmn
      rw [Function.update_self, Function.update_self, hn]
      exact ⟨rfl, hn ▸ hval⟩
    · rw [record_stored h t _ (by omega)] at hm
      -- an element still in the queue lives in another slot
      have hslot : q.slot m ≠ q.slot n := fun heq => hmn <|
        ok.slot_inj hle (ok.stored_lt m hm)
          (Nat.le_trans ok.read_le (ok.confirmed_le hfree))
          (List.getElem?_eq_some_iff.mp hval).1 heq
      rw [Function.update_of_ne hslot, Function.update_of_ne hslot]
      exact ok.slots m hle hm
  popped := ok.popped

theorem shared_confirmed (ok : SharedOk q h) (hnext : h.stored h.confirmed.length = true)
    (data : α) :
    SharedOk { q with lastWriteIndex := q.lastWriteIndex + 1 }
      (h.record t (.confirmed data)) where
  size := ok.size
  read := ok.read
  write := ok.write
  last := by
    show q.lastWriteIndex + 1 = UInt32.ofNat (h.confirmed ++ [data]).length
    rw [ok.last, List.length_append, UInt32.ofNat_add]
    rfl
  read_le := by
    show h.pops.length ≤ (h.confirmed ++ [data]).length
    have := ok.read_le
    simp only [List.length_append]
    omega
  last_le := by
    show (h.confirmed ++ [data]).length ≤ h.pushes.length
    have := ok.stored_lt _ hnext
    simp only [List.length_append, List.length_singleton]
    omega
  room := ok.room
  stored_lt := ok.stored_lt
  confirmed_stored := by
    intro n hn
    have hle : n < (h.confirmed ++ [data]).length := hn
    simp only [List.length_append, List.length_singleton] at hle
    rcases Nat.lt_or_ge n h.confirmed.length with hlt | hge
    · exact ok.confirmed_stored n hlt
    · have : n = h.confirmed.length := by omega
      subst this
      exact hnext
  slots := ok.slots
  popped := ok.popped

theorem shared_consumed (ok : SharedOk q h) (hlt : h.pops.length < h.confirmed.length) {data : α}
    (hsource : (h.thread t).source = some h.pops.length)
    (hval : h.pushes[h.pops.length]? = some data) :
    SharedOk { q with readIndex := q.readIndex + 1 } (h.record t (.consumed data)) where
  size := ok.size
  read := by
    show q.readIndex + 1 = UInt32.ofNat (h.pops ++ [_]).length
    rw [ok.read, List.length_append, UInt32.ofNat_add]
    rfl
  write := ok.write
  last := ok.last
  read_le := by
    show (h.pops ++ [_]).length ≤ h.confirmed.length
    simp only [List.length_append, List.length_singleton]
    omega
  last_le := ok.last_le
  room := by
    show h.pushes.length < (h.pops ++ [_]).length + q.size.toNat
    have := ok.room
    simp only [List.length_append]
    omega
  stored_lt := ok.stored_lt
  confirmed_stored := ok.confirmed_stored
  slots := by
    intro n hle hn
    have : h.pops.length ≤ n := Nat.le_trans (record_pops_le h t (.consumed data)) hle
    exact ok.slots n this hn
  popped := by
    intro i p hp
    have hp' : (h.pops ++ [((h.thread t).source, data)])[i]? = some p := hp
    rcases Nat.lt_or_ge i h.pops.length with hi | hi
    · rw [List.getElem?_append_left hi] at hp'
      exact ok.popped i p hp'
    · rw [List.getElem?_append_right hi] at hp'
      obtain ⟨hzero, heq⟩ := List.getElem?_eq_some_iff.mp hp'
      have hi' : i = h.pops.length := by simp at hzero; omega
      subst hi'
      simp only [Nat.sub_self, List.getElem_cons_zero] at heq
      subst heq
      exact ⟨hsource, hval⟩

end Access

/-! ## One step -/

/-- The queue length counter takes no part in the protocol. -/
theorem SharedOk.setLength {q : LockFreeRingQueue α} {h : History ι α} (ok : SharedOk q h)
    (n : UInt32) : SharedOk { q with length := n } h :=
  ⟨ok.size, ok.read, ok.write, ok.last, ok.read_le, ok.last_le, ok.room, ok.stored_lt,
    ok.confirmed_stored, ok.slots, ok.popped⟩

section Step

variable [DecidableEq ι]

theorem SharedOk.setLocal {q : LockFreeRingQueue α} {h : History ι α} (ok : SharedOk q h)
    (t : ι) (f : Local → Local) : SharedOk q (h.setLocal t f) :=
  ⟨ok.size, ok.read, ok.write, ok.last, ok.read_le, ok.last_le, ok.room, ok.stored_lt,
    ok.confirmed_stored, ok.slots, ok.popped⟩

theorem step_act {s s' : Sys ι α} {m : ι × Label α} (hstep : s.step m = some s') :
    ∃ mem pc e, act s.mem (s.pc m.1) m.2 = some (mem, pc, e) ∧
      s' = { mem := mem, pc := Function.update s.pc m.1 pc, hist := s.hist.record m.1 e } := by
  unfold Sys.step at hstep
  split at hstep
  · rename_i mem pc e hact
    exact ⟨mem, pc, e, hact, (Option.some.inj hstep).symm⟩
  · simp at hstep

/-- What one sound access leaves: the shared invariant, and local values of
the moving thread that mean what they should. -/
theorem act_inv {s : Sys ι α} (inv : Inv s) {t : ι} {l : Label α} (hsound : Sound s (t, l) = true)
    {mem : LockFreeRingQueue α} {pc : Pc α} {e : Event α}
    (hact : act s.mem (s.pc t) l = some (mem, pc, e)) :
    SharedOk mem (s.hist.record t e) ∧
      ThreadOk (s.hist.record t e) ((s.hist.record t e).thread t) pc := by
  have ok := inv.toSharedOk
  have hthread := inv.threads t
  replace hact := act_iff_access.mp hact
  unfold Sound at hsound
  generalize s.pc t = pc₀ at hact hthread hsound
  cases hact with
  | callPush | callPop =>
    rw [History.record_called]
    exact ⟨ok.setLocal _ _, trivial⟩
  | pushReserve data =>
    have hfull : s.mem.full = false := by simpa using hsound
    refine ⟨shared_reserved ok hfull data, ?_⟩
    -- the new number is the number of pushes reserved so far
    simp only [ThreadOk, History.record, History.tick, History.setLocal, Function.update_self]
    refine ⟨ok.write, ?_, by simp⟩
    by_contra hst
    have := ok.stored_lt _ (by simpa using hst)
    omega
  | pushStore data w =>
    obtain ⟨rfl, hfree, hval⟩ := hthread
    exact ⟨shared_stored ok rfl hfree hval, trivial⟩
  | pushConfirm data => exact ⟨shared_confirmed ok (by simpa using hsound) data, trivial⟩
  | pushCount | popCount => exact ⟨ok.setLength _, trivial⟩
  | popLoadRead =>
    rw [History.record_loadedRead]
    refine ⟨ok.setLocal _ _, ?_⟩
    simp only [ThreadOk, History.setLocal, Function.update_self]
    exact ⟨ok.read, Nat.le_refl _⟩
  | popLoadLast r hne =>
    obtain ⟨rfl, hle⟩ := hthread
    refine ⟨ok, rfl, hle, fun heq => ok.read_lt ?_⟩
    have heq' : (s.hist.thread t).loadedAt = s.hist.pops.length := heq
    rw [← heq']
    exact hne
  | popReadSlot r =>
    obtain ⟨rfl, hle, hready⟩ := hthread
    rw [History.record_sawSlot]
    refine ⟨ok.setLocal _ _, ?_⟩
    simp only [ThreadOk, History.setLocal, Function.update_self]
    refine ⟨trivial, hle, fun heq => ?_⟩
    -- nothing was popped since the load, so the slot holds the next element
    have hlt := hready heq
    obtain ⟨hwriter, hval⟩ := ok.slots (s.hist.thread t).loadedAt (by omega)
      (ok.confirmed_stored _ (by omega))
    exact ⟨hlt, hwriter, hval⟩
  | popAdvance data =>
    have hsame : (s.hist.thread t).loadedAt = s.hist.pops.length := by simpa using hsound
    obtain ⟨-, -, hready⟩ := hthread
    obtain ⟨hlt, hsource, hval⟩ := hready hsame
    rw [hsame] at hsource hval
    exact ⟨shared_consumed ok hlt hsource hval, trivial⟩
  | pushLoadRead | pushRefused | pushLoadWrite | pushRetry | pushReread | popRefused | popRetry =>
    exact ⟨ok, trivial⟩

/-- A slot write is only done by a thread that is at its slot write. -/
theorem act_stored {q q' : LockFreeRingQueue α} {pc pc' : Pc α} {l : Label α} {slot : UInt32}
    (hact : act q pc l = some (q', pc', .stored slot)) : ∃ d w, pc = .pushStore d w := by
  cases act_iff_access.mp hact with
  | pushStore d w => exact ⟨d, w, rfl⟩

/-- A thread arrives at its slot write by reserving a slot only. -/
theorem act_to_pushStore {q q' : LockFreeRingQueue α} {pc : Pc α} {l : Label α} {e : Event α}
    {d : α} {w : UInt32} (hact : act q pc l = some (q', .pushStore d w, e)) :
    e = .reserved d := by
  cases act_iff_access.mp hact with
  | pushReserve => rfl

/-- A step does not complete the push of another thread. -/
theorem record_stored_other {s : Sys ι α} (inv : Inv s) {t u : ι} (hu : u ≠ t) {l : Label α}
    {mem : LockFreeRingQueue α} {pc : Pc α} {e : Event α}
    (hact : act s.mem (s.pc t) l = some (mem, pc, e)) {d : α} {w : UInt32}
    (hpc : s.pc u = .pushStore d w) :
    (s.hist.record t e).stored (s.hist.thread u).ticket
      = s.hist.stored (s.hist.thread u).ticket := by
  by_cases he : ∃ slot, e = .stored slot
  · obtain ⟨slot, rfl⟩ := he
    obtain ⟨d', w', hpc'⟩ := act_stored hact
    exact record_stored _ t _ fun hsame => hu (inv.storing u t d d' w w' hpc hpc' hsame)
  · exact record_stored_of_ne _ t e (fun slot heq => he ⟨slot, heq⟩) _

/-- The number just reserved is not held by any other thread. -/
theorem ticket_ne_of_reserved {s : Sys ι α} (inv : Inv s) {t u : ι} (hu : u ≠ t) {data d : α}
    {w : UInt32} (hpc : s.pc u = .pushStore d w) :
    ((s.hist.record t (.reserved data)).thread t).ticket
      ≠ ((s.hist.record t (.reserved data)).thread u).ticket := by
  have hthread := inv.threads u
  rw [hpc] at hthread
  obtain ⟨-, -, hval⟩ := hthread
  have hlt := (List.getElem?_eq_some_iff.mp hval).1
  rw [(record_thread_other s.hist t _ hu).1]
  simp only [History.record, History.tick, History.setLocal, Function.update_self]
  omega

/-- **Every sound step preserves the invariant.** -/
theorem step_inv {s s' : Sys ι α} {m : ι × Label α} (inv : Inv s) (hsound : Sound s m = true)
    (hstep : s.step m = some s') : Inv s' := by
  obtain ⟨t, l⟩ := m
  obtain ⟨mem, pc, e, hact, rfl⟩ := step_act hstep
  obtain ⟨hshared, hmoved⟩ := act_inv inv hsound hact
  refine { toSharedOk := hshared, threads := fun u => ?_, storing := ?_ }
  · by_cases hu : u = t
    · subst hu
      simpa using hmoved
    · simp only [Function.update_of_ne hu]
      exact (inv.threads u).mono (record_thread_other _ t e hu)
        (fun n v => record_pushes _ t e) (record_pops_le _ t e) (record_confirmed_le _ t e)
        (fun d w hpc => record_stored_other inv hu hact hpc)
  · intro u v d d' w w' hu hv htick
    by_cases hut : u = t <;> by_cases hvt : v = t
    · rw [hut, hvt]
    · subst hut
      simp only [Function.update_self, Function.update_of_ne hvt] at hu hv
      subst hu
      obtain rfl := act_to_pushStore hact
      exact absurd htick (ticket_ne_of_reserved inv hvt hv)
    · subst hvt
      simp only [Function.update_self, Function.update_of_ne hut] at hu hv
      subst hv
      obtain rfl := act_to_pushStore hact
      exact absurd htick.symm (ticket_ne_of_reserved inv hut hu)
    · simp only [Function.update_of_ne hut, Function.update_of_ne hvt] at hu hv
      rw [(record_thread_other _ t e hut).1, (record_thread_other _ t e hvt).1] at htick
      exact inv.storing u v d d' w w' hu hv htick

end Step

end TinyTcp.Ring
