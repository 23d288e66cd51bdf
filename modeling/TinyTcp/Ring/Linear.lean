/-
TinyTcp.Ring.Linear — the ring queue as an atomic queue.

As long as no push begins while another push is in progress, and no pop
while another pop is, `LockFreeRingQueue` is a bounded first-in first-out
queue whose operations are atomic (`linearizable_of_inTurn`), whatever the
threads, and however push and pop interleave. Nothing is assumed about the
number of calls: an index that goes round its `2 ^ 32` values does no harm,
nor does a compare-exchange that fails for no reason. With one producer
and one consumer nobody has to see to it (`linearizable_of_pair`).

* A push has its effect when it confirms, a pop when it moves the read index.
* A pop that is refused finds the queue empty when it loads the last write
  index.
* A push that is refused found the queue full when it loaded the read
  index, which is before it tests for it: the pop may have made room since.
-/
import TinyTcp.Ring.SingleProducer
import TinyTcp.Ring.Sequential
import TinyTcp.Lib.Linearizable

namespace TinyTcp.Ring

open TinyTcp.Lib

variable {ι α : Type}

/-! ## One call of a kind at a time -/

/-- The accesses of `pop`. -/
def Pc.isPop : Pc α → Bool
  | .popLoadRead | .popLoadLast _ | .popReadSlot _ | .popAdvance _ _ | .popCount _ => true
  | _ => false

/-- A call begins only if no call of its kind is in progress. -/
def InTurn (s : Sys ι α) (m : ι × Label α) : Prop :=
  match m.2 with
  | .push _ => ∀ t, (s.pc t).isPush = false
  | .pop => ∀ t, (s.pc t).isPop = false
  | _ => True

instance inTurnDecidable [Fintype ι] (s : Sys ι α) (m : ι × Label α) : Decidable (InTurn s m) :=
  match h : m.2 with
  | .push _ => decidable_of_iff (∀ t, (s.pc t).isPush = false) (by rw [InTurn, h])
  | .pop => decidable_of_iff (∀ t, (s.pc t).isPop = false) (by rw [InTurn, h])
  | .go => isTrue (by rw [InTurn, h]; trivial)
  | .spurious => isTrue (by rw [InTurn, h]; trivial)

/-- The read index that the one pop loaded is the present one. -/
def ConsumerOk (h : History ι α) (l : Local) : Pc α → Prop
  | .popLoadLast _ | .popReadSlot _ | .popAdvance _ _ => l.loadedAt = h.pops.length
  | _ => True

structure TurnInv (s : Sys ι α) : Prop extends Inv s where
  push_one : ∀ t u, (s.pc t).isPush = true → (s.pc u).isPush = true → t = u
  pop_one : ∀ t u, (s.pc t).isPop = true → (s.pc u).isPop = true → t = u
  pushing : ∀ t, (s.pc t).isPush = true → ProducerOk s.hist s.mem.size.toNat (s.pc t)
  quiet : (∀ t, (s.pc t).isPush = false) → s.hist.confirmed.length = s.hist.pushes.length
  popping : ∀ t, ConsumerOk s.hist (s.hist.thread t) (s.pc t)
  in_order : s.hist.confirmed = s.hist.pushes.take s.hist.confirmed.length

theorem init_turn [Inhabited α] {size : UInt32} (h1 : 1 ≤ size.toNat) (h31 : size.toNat ≤ 2 ^ 31) :
    TurnInv (Sys.init (α := α) ι size) where
  toInv := init_inv h1 h31
  push_one := fun _ _ ht => Bool.noConfusion ht
  pop_one := fun _ _ ht => Bool.noConfusion ht
  pushing := fun _ ht => Bool.noConfusion ht
  quiet := fun _ => rfl
  popping := fun _ => trivial
  in_order := rfl

theorem TurnInv.sound {s : Sys ι α} (inv : TurnInv s) (m : ι × Label α) : Sound s m = true := by
  obtain ⟨t, l⟩ := m
  have hpush := inv.pushing t
  have hpop := inv.popping t
  unfold Sound
  split
  · next data w hpc _ =>
    rw [hpc] at hpush
    obtain ⟨-, hroom⟩ := hpush rfl
    rw [not_full_of_room inv.toSharedOk hroom]
    simp
  · next data w hpc _ =>
    rw [hpc] at hpush
    obtain ⟨-, hstored, -⟩ := hpush rfl
    rw [hstored]
    simp
  · next r data hpc _ =>
    rw [hpc] at hpop
    have hsame : (s.hist.thread t).loadedAt = s.hist.pops.length := hpop
    simp [hsame]
  · rfl

/-! ## What one step keeps -/

/-- If one is of the kind `p`, no other one is or becomes so. -/
theorem alone_of_one {f : ι → Pc α} {p : Pc α → Bool} {t u : ι} {starts : Prop}
    (hone : ∀ t u, p (f t) = true → p (f u) = true → t = u) (hstarts : starts → ∀ u, p (f u) = false)
    (hu : u ≠ t) (hup : p (f u) = true) : p (f t) = false ∧ ¬starts := by
  refine ⟨Bool.eq_false_iff.mpr fun ht => hu (hone u t hup ht), fun hs => ?_⟩
  rw [hstarts hs u] at hup
  cases hup

theorem one_update [DecidableEq ι] {f : ι → Pc α} {p : Pc α → Bool} {t : ι} {pc : Pc α} {starts : Prop}
    (hone : ∀ t u, p (f t) = true → p (f u) = true → t = u) (hstarts : starts → ∀ u, p (f u) = false)
    (hnew : p pc = true → p (f t) = true ∨ starts) (u v : ι)
    (hu : p (Function.update f t pc u) = true) (hv : p (Function.update f t pc v) = true) : u = v := by
  have hother : ∀ u, u ≠ t → p (f u) = true → ¬p pc = true := by
    intro u hut hup hpc
    obtain ⟨ht, hs⟩ := alone_of_one hone hstarts hut hup
    rcases hnew hpc with h | h
    · rw [ht] at h
      cases h
    · exact hs h
  by_cases hut : u = t <;> by_cases hvt : v = t
  · rw [hut, hvt]
  · simp only [hut, Function.update_self, Function.update_of_ne hvt] at hu hv
    exact absurd hu (hother v hvt hv)
  · simp only [hvt, Function.update_self, Function.update_of_ne hut] at hu hv
    exact absurd hv (hother u hut hu)
  · simp only [Function.update_of_ne hut, Function.update_of_ne hvt] at hu hv
    exact hone u v hu hv

theorem producerOk_iff {h : History ι α} {size : Nat} {pc : Pc α} (hpc : pc.isPush = false) :
    ProducerOk h size pc ↔ h.confirmed.length = h.pushes.length := by
  cases pc with
  | idle | popLoadRead | popLoadLast | popReadSlot | popAdvance | popCount => exact Iff.rfl
  | _ => cases hpc

theorem consumerOk_of_not_pop {h : History ι α} {l : Local} {pc : Pc α} (hpc : pc.isPop = false) :
    ConsumerOk h l pc := by
  cases pc with
  | popLoadLast | popReadSlot | popAdvance => cases hpc
  | _ => trivial

theorem act_calls {q q' : LockFreeRingQueue α} {pc pc' : Pc α} {l : Label α} {e : Event α}
    (hact : act q pc l = some (q', pc', e)) (hl : l.isPush = true ∨ l = .pop) : pc = .idle := by
  cases act_iff_access.mp hact with
  | callPush | callPop => rfl
  | pushRetry _ _ _ h | pushReread _ _ _ h | popRetry _ _ _ h =>
    rcases h with rfl | ⟨rfl, -⟩
    · simp [Label.isPush] at hl
    · simp [Label.isPush] at hl
  | _ => simp [Label.isPush] at hl

theorem act_isPush {q q' : LockFreeRingQueue α} {pc pc' : Pc α} {l : Label α} {e : Event α}
    (hact : act q pc l = some (q', pc', e)) (hpush : pc'.isPush = true) :
    pc.isPush = true ∨ l.isPush = true := by
  cases act_iff_access.mp hact with
  | callPush => exact Or.inr rfl
  | callPop | pushRefused | popLoadRead | popRefused | popLoadLast | popReadSlot | popAdvance
  | popRetry | popCount => cases hpush
  | _ => exact Or.inl rfl

theorem act_isPop {q q' : LockFreeRingQueue α} {pc pc' : Pc α} {l : Label α} {e : Event α}
    (hact : act q pc l = some (q', pc', e)) (hpop : pc'.isPop = true) : pc.isPop = true ∨ l = .pop := by
  cases act_iff_access.mp hact with
  | callPop => exact Or.inr rfl
  | popLoadRead | popLoadLast | popReadSlot | popAdvance | popRetry => exact Or.inl rfl
  | _ => cases hpop

section Step

variable [DecidableEq ι] {s s' : Sys ι α} {t : ι} {l : Label α} {mem : LockFreeRingQueue α} {pc : Pc α}
  {e : Event α}

theorem act_pops (hact : act s.mem (s.pc t) l = some (mem, pc, e)) (hpop : (s.pc t).isPop = false) :
    (s.hist.record t e).pops = s.hist.pops := by
  replace hact := act_iff_access.mp hact
  generalize s.pc t = pc₀ at hact hpop
  cases hact with
  | popAdvance => cases hpop
  | _ => rfl

theorem act_consumerOk (hact : act s.mem (s.pc t) l = some (mem, pc, e))
    (ok : ConsumerOk s.hist (s.hist.thread t) (s.pc t)) :
    ConsumerOk (s.hist.record t e) ((s.hist.record t e).thread t) pc := by
  replace hact := act_iff_access.mp hact
  generalize s.pc t = pc₀ at hact ok
  cases hact with
  | popLoadRead => simp [ConsumerOk, History.record, History.setLocal]
  | popLoadLast => exact ok
  | popReadSlot =>
    have hsame : (s.hist.thread t).loadedAt = s.hist.pops.length := ok
    simp [ConsumerOk, History.record, History.setLocal, hsame]
  | _ => trivial

/-- The confirmations follow the order of the reservations. -/
theorem TurnInv.act_in_order (inv : TurnInv s) (hact : act s.mem (s.pc t) l = some (mem, pc, e)) :
    (s.hist.record t e).confirmed =
      (s.hist.record t e).pushes.take (s.hist.record t e).confirmed.length := by
  cases e with
  | reserved data =>
    show s.hist.confirmed = (s.hist.pushes ++ [data]).take s.hist.confirmed.length
    rw [List.take_append_of_le_length inv.last_le]
    exact inv.in_order
  | confirmed data =>
    obtain ⟨w, hpc⟩ := act_confirmed hact
    have hok := inv.pushing t (by rw [hpc]; rfl)
    rw [hpc] at hok
    show s.hist.confirmed ++ [data] = s.hist.pushes.take (s.hist.confirmed ++ [data]).length
    rw [List.length_append, List.length_singleton, List.take_add_one, hok.2.2, ← inv.in_order]
    rfl
  | _ => exact inv.in_order

/-- **A step in turn preserves the invariant.** -/
theorem TurnInv.step (inv : TurnInv s) {m : ι × Label α} (hturn : InTurn s m)
    (hstep : s.step m = some s') : TurnInv s' := by
  have hinv := step_inv inv.toInv (inv.sound m) hstep
  obtain ⟨t, l⟩ := m
  obtain ⟨mem, pc, e, hact, rfl⟩ := step_act hstep
  have hpush : l.isPush = true → ∀ u, (s.pc u).isPush = false := by
    intro hl
    cases l with
    | push data => exact hturn
    | _ => cases hl
  have hpop : l = .pop → ∀ u, (s.pc u).isPop = false := by
    rintro rfl
    exact hturn
  have hok : (s.pc t).isPush = true ∨ l.isPush = true →
      ProducerOk (s.hist.record t e) s.mem.size.toNat pc := by
    rintro (ht | hl)
    · exact act_producerOk inv.toInv (inv.pushing t ht) hact
    · refine act_producerOk inv.toInv ?_ hact
      exact (producerOk_iff (hpush hl t)).mpr (inv.quiet (hpush hl))
  refine { toInv := hinv, push_one := one_update inv.push_one hpush (act_isPush hact),
           pop_one := one_update inv.pop_one hpop (act_isPop hact), pushing := fun u hu => ?_,
           quiet := fun hall => ?_, popping := fun u => ?_, in_order := inv.act_in_order hact }
  · rw [act_size hact]
    by_cases hut : u = t
    · subst hut
      simp only [Function.update_self] at hu ⊢
      exact hok (act_isPush hact hu)
    · simp only [Function.update_of_ne hut] at hu ⊢
      obtain ⟨ht, hl⟩ := alone_of_one inv.push_one hpush hut hu
      obtain ⟨-, hp, hc, hst⟩ := act_of_not_push hact ht (Bool.eq_false_iff.mpr hl) s.hist t
      exact (inv.pushing u hu).mono hp hc hst (record_pops_le _ t e)
  · have hpc : pc.isPush = false := by simpa using hall t
    cases ht : (s.pc t).isPush with
    | true => exact (producerOk_iff hpc).mp (hok (Or.inl ht))
    | false =>
      cases hl : l.isPush with
      | true => exact (producerOk_iff hpc).mp (hok (Or.inr hl))
      | false =>
        obtain ⟨-, hp, hc, -⟩ := act_of_not_push hact ht hl s.hist t
        rw [hp, hc]
        refine inv.quiet fun u => ?_
        by_cases hut : u = t
        · rw [hut, ht]
        · simpa [Function.update_of_ne hut] using hall u
  · by_cases hut : u = t
    · subst hut
      simpa using act_consumerOk hact (inv.popping u)
    · simp only [Function.update_of_ne hut]
      cases hup : (s.pc u).isPop with
      | false => exact consumerOk_of_not_pop hup
      | true =>
        have hpops := act_pops hact (alone_of_one inv.pop_one hpop hut hup).1
        have hloaded := (record_thread_other s.hist t e hut).2.2
        have ok := inv.popping u
        cases hpc : s.pc u with
        | popLoadLast r | popReadSlot r | popAdvance r data =>
          rw [hpc] at ok
          show ((s.hist.record t e).thread u).loadedAt = (s.hist.record t e).pops.length
          rw [hpops, hloaded]
          exact ok
        | _ => trivial

end Step

/-! ## The atomic queue -/

/-- The call of a thread in the atomic queue. A push that has loaded the read
index of a full queue is refused already. -/
def callOf (q : LockFreeRingQueue α) : Pc α → CallState (Call α) (Reply α)
  | .idle => .idle
  | .pushLoadWrite data r =>
      if q.indexOfQueue (q.writeIndex + 1) = q.indexOfQueue r then .done (.pushed false)
      else .pending (.push data)
  | .pushLoadRead data | .pushReserve data _ | .pushStore data _ | .pushConfirm data _ =>
      .pending (.push data)
  | .pushCount => .done (.pushed true)
  | .popLoadRead | .popLoadLast _ | .popReadSlot _ | .popAdvance _ _ => .pending .pop
  | .popCount data => .done (.popped (some data))

/-- Its elements are the confirmed ones that have not been taken. -/
def Sys.atomic (s : Sys ι α) : Atomic ι (Fifo α) (Call α) (Reply α) where
  state := ⟨s.mem.size.toNat - 1, s.hist.confirmed.drop s.hist.pops.length⟩
  call := fun t => callOf s.mem (s.pc t)

def markOf : Label α → Event α → Option (Mark (Call α) (Reply α))
  | .push data, .called => some (.call (.push data))
  | .pop, .called => some (.call .pop)
  | _, .pushReturned ok => some (.ret (.pushed ok))
  | _, .popReturned data => some (.ret (.popped data))
  | _, _ => none

/-- The calls and returns of the threads. -/
def Sys.mark (s : Sys ι α) (m : ι × Label α) : Option (ι × Mark (Call α) (Reply α)) :=
  (act s.mem (s.pc m.1) m.2).bind fun r => (markOf m.2 r.2.2).map (Prod.mk m.1)

theorem callOf_of_not_push (q q' : LockFreeRingQueue α) {pc : Pc α} (hpc : pc.isPush = false) :
    callOf q' pc = callOf q pc := by
  cases pc with
  | idle | popLoadRead | popLoadLast | popReadSlot | popAdvance | popCount => rfl
  | _ => cases hpc

theorem callOf_congr {q q' : LockFreeRingQueue α} (hsize : q'.size = q.size)
    (hwrite : q'.writeIndex = q.writeIndex) (pc : Pc α) : callOf q' pc = callOf q pc := by
  cases pc with
  | pushLoadWrite data r =>
    have hindex : q'.indexOfQueue = q.indexOfQueue := by
      funext index
      rw [LockFreeRingQueue.indexOfQueue, hsize, LockFreeRingQueue.indexOfQueue]
    rw [callOf, callOf, hindex, hwrite]
  | _ => rfl

theorem act_writeIndex {q q' : LockFreeRingQueue α} {pc pc' : Pc α} {l : Label α} {e : Event α}
    (hact : act q pc l = some (q', pc', e)) (hpc : pc.isPush = false) :
    q'.writeIndex = q.writeIndex := by
  cases act_iff_access.mp hact with
  | pushReserve => cases hpc
  | _ => rfl

section Simulation

variable [DecidableEq ι] {s s' : Sys ι α} {t : ι} {l : Label α} {mem : LockFreeRingQueue α} {pc : Pc α}
  {e : Event α}

/-- Only the call of the mover changes. -/
theorem TurnInv.atomic_step (inv : TurnInv s) (hact : act s.mem (s.pc t) l = some (mem, pc, e)) :
    Sys.atomic ⟨mem, Function.update s.pc t pc, s.hist.record t e⟩ =
      ⟨⟨s.mem.size.toNat - 1,
          (s.hist.record t e).confirmed.drop (s.hist.record t e).pops.length⟩,
        Function.update s.atomic.call t (callOf mem pc)⟩ := by
  have hcall : (fun u => callOf mem (Function.update s.pc t pc u)) =
      Function.update s.atomic.call t (callOf mem pc) := by
    funext u
    by_cases hut : u = t
    · simp [hut]
    · simp only [Function.update_of_ne hut]
      change _ = callOf s.mem (s.pc u)
      cases hup : (s.pc u).isPush with
      | false => exact callOf_of_not_push _ _ hup
      | true =>
        have ht : (s.pc t).isPush = false := Bool.eq_false_iff.mpr fun ht => hut (inv.push_one u t hup ht)
        exact callOf_congr (act_size hact) (act_writeIndex hact ht) _
  simp only [Sys.atomic, act_size hact, hcall]

omit [DecidableEq ι] in
/-- What a push that begins finds. -/
theorem TurnInv.full_iff (inv : TurnInv s) (hquiet : s.hist.confirmed.length = s.hist.pushes.length) :
    s.mem.full = true ↔ s.atomic.state.cap ≤ s.atomic.state.items.length := by
  have hroom := inv.room
  have hle := inv.read_le
  have hlength : s.atomic.state.items.length = s.hist.confirmed.length - s.hist.pops.length :=
    List.length_drop
  have hcap : s.atomic.state.cap = s.mem.size.toNat - 1 := rfl
  constructor
  · intro hfull
    by_contra hlt
    rw [not_full_of_room inv.toSharedOk (by omega)] at hfull
    cases hfull
  · intro hge
    by_contra hnot
    have := inv.room_of_not_full (Bool.eq_false_iff.mpr hnot)
    omega

omit [DecidableEq ι] in
theorem TurnInv.empty_iff (inv : TurnInv s) :
    s.mem.indexOfQueue s.mem.lastWriteIndex = s.mem.indexOfQueue s.mem.readIndex ↔
      s.atomic.state.items = [] := by
  have hroom := inv.room
  have hlast := inv.last_le
  rw [inv.last, inv.read]
  constructor
  · intro heq
    have hsame := and_mask_inj_of_near inv.size inv.read_le (by omega) heq.symm
    exact List.drop_eq_nil_of_le hsame.ge
  · intro hnil
    have hge := List.drop_eq_nil_iff.mp hnil
    rw [Nat.le_antisymm hge inv.read_le]

/-- **One access** is none, one or two steps of the atomic queue. -/
theorem TurnInv.goes (inv : TurnInv s) (hact : act s.mem (s.pc t) l = some (mem, pc, e)) :
    Atomic.Goes fifoCall s.atomic
      ⟨⟨s.mem.size.toNat - 1, (s.hist.record t e).confirmed.drop (s.hist.record t e).pops.length⟩,
        Function.update s.atomic.call t (callOf mem pc)⟩
      ((markOf l e).map (Prod.mk t)).toList := by
  have hcall : s.atomic.call t = callOf s.mem (s.pc t) := rfl
  have hthread := inv.threads t
  have hpushing := inv.pushing t
  have hpopping := inv.popping t
  have hquiet : ∀ c, c = s.atomic.call t →
      Atomic.Goes fifoCall s.atomic ⟨s.atomic.state, Function.update s.atomic.call t c⟩ [] := by
    rintro c rfl
    rw [Function.update_eq_self]
    exact .refl _
  replace hact := act_iff_access.mp hact
  generalize s.pc t = pc₀ at hact hcall hthread hpushing hpopping
  cases hact with
  | callPush data => exact .enter (.push data) hcall
  | callPop => exact .enter .pop hcall
  | pushLoadRead data =>
    have hsame : s.hist.confirmed.length = s.hist.pushes.length := hpushing rfl
    by_cases hfull : s.mem.full = true
    · have hnow : callOf s.mem (.pushLoadWrite data s.mem.readIndex) =
          CallState.done (Reply.pushed false) := if_pos (by simpa [LockFreeRingQueue.full] using hfull)
      have happly : fifoCall s.atomic.state (.push data) = (.pushed false, s.atomic.state) := by
        simp [fifoCall, Fifo.push_of_full ((inv.full_iff hsame).mp hfull)]
      rw [hnow]
      exact .effect hcall happly
    · refine hquiet _ ?_
      rw [hcall]
      exact if_neg (by simpa [LockFreeRingQueue.full] using hfull)
  | pushRefused data r hfull =>
    have hbefore : callOf s.mem (.pushLoadWrite data r) = CallState.done (Reply.pushed false) :=
      if_pos hfull
    exact .ret (hcall.trans hbefore)
  | pushLoadWrite data r hroom =>
    refine hquiet _ ?_
    rw [hcall]
    exact (if_neg hroom).symm
  | pushReserve data => exact hquiet _ hcall.symm
  | pushRetry data w l hl =>
    rcases hl with rfl | ⟨rfl, -⟩
    · exact hquiet _ hcall.symm
    · exact hquiet _ hcall.symm
  | pushStore data w => exact hquiet _ hcall.symm
  | pushConfirm data =>
    have hroom := inv.room
    have hlast : s.hist.confirmed.length + 1 = s.hist.pushes.length := (hpushing rfl).1
    have hle := inv.read_le
    have hlt : s.atomic.state.items.length < s.atomic.state.cap := by
      change (s.hist.confirmed.drop s.hist.pops.length).length < s.mem.size.toNat - 1
      rw [List.length_drop]
      omega
    have happly : fifoCall s.atomic.state (.push data) = (.pushed true,
        ⟨s.mem.size.toNat - 1, (s.hist.confirmed ++ [data]).drop s.hist.pops.length⟩) := by
      rw [List.drop_append_of_le_length inv.read_le, fifoCall, Fifo.push_of_room hlt]
      rfl
    exact .effect hcall happly
  | pushReread data w l hl =>
    rcases hl with rfl | ⟨rfl, -⟩
    · exact hquiet _ hcall.symm
    · exact hquiet _ hcall.symm
  | pushCount => exact .ret hcall
  | popLoadRead => exact hquiet _ hcall.symm
  | popRefused r hempty =>
    obtain ⟨hr, -⟩ := hthread
    have hloaded : (s.hist.thread t).loadedAt = s.hist.pops.length := hpopping
    rw [hr, hloaded, ← inv.read] at hempty
    have hitems := inv.empty_iff.mp hempty
    have happly : fifoCall s.atomic.state .pop = (.popped none, s.atomic.state) := by
      simp [fifoCall, Fifo.pop, hitems]
    have hafter : Function.update s.atomic.call t (CallState.done (Reply.popped (none : Option α))) t =
        CallState.done (Reply.popped none) := Function.update_self ..
    have hgoes := (Atomic.Goes.effect hcall happly).trans (.ret hafter)
    rwa [Function.update_idem] at hgoes
  | popLoadLast r hne => exact hquiet _ hcall.symm
  | popReadSlot r => exact hquiet _ hcall.symm
  | popAdvance data =>
    obtain ⟨-, -, hready⟩ := hthread
    have hloaded : (s.hist.thread t).loadedAt = s.hist.pops.length := hpopping
    obtain ⟨hlt, -, hval⟩ := hready hloaded
    rw [hloaded] at hval
    have hitems : s.atomic.state.items = data :: s.hist.confirmed.drop (s.hist.pops.length + 1) := by
      have hget : s.hist.confirmed[s.hist.pops.length]? = some data := by
        rw [inv.in_order, List.getElem?_take_of_lt hlt, hval]
      obtain ⟨hlt, hget⟩ := List.getElem?_eq_some_iff.mp hget
      change s.hist.confirmed.drop s.hist.pops.length = _
      rw [List.drop_eq_getElem_cons hlt, hget]
    have happly : fifoCall s.atomic.state .pop = (.popped (some data),
        ⟨s.mem.size.toNat - 1, s.hist.confirmed.drop (s.hist.pops.length + 1)⟩) := by
      simp [fifoCall, Fifo.pop, hitems]
      rfl
    have hpops : (s.hist.record t (.consumed data)).pops.length = s.hist.pops.length + 1 := by
      simp [History.record, History.tick]
    rw [hpops]
    exact .effect hcall happly
  | popRetry r data l hl =>
    rcases hl with rfl | ⟨rfl, -⟩
    · exact hquiet _ hcall.symm
    · exact hquiet _ hcall.symm
  | popCount data => exact .ret hcall

/-- One step and what callers see of it. -/
theorem TurnInv.step_goes (inv : TurnInv s) {m : ι × Label α} (hstep : s.step m = some s') :
    Atomic.Goes fifoCall s.atomic s'.atomic (s.mark m).toList := by
  obtain ⟨t, l⟩ := m
  obtain ⟨mem, pc, e, hact, rfl⟩ := step_act hstep
  have hmark : s.mark (t, l) = (markOf l e).map (Prod.mk t) := by
    rw [Sys.mark, hact, Option.bind_some]
  rw [inv.atomic_step hact, hmark]
  exact inv.goes hact

end Simulation

/-! ## Whole runs -/

section Runs

variable [DecidableEq ι] [Inhabited α]

omit [Inhabited α] in
/-- From any state in which no call is in progress, with the elements that are in the queue. -/
theorem TurnInv.linearizable {s s' : Sys ι α} (inv : TurnInv s) (hidle : ∀ t, s.pc t = .idle)
    {moves : List (ι × Label α)} (hturn : Along Sys.step InTurn s moves)
    (hrun : run Sys.step s moves = some s') :
    Linearizable fifoCall s.atomic.state (history Sys.step Sys.mark s moves) := by
  have hcall : s.atomic = .init s.atomic.state := by
    simp [Sys.atomic, Atomic.init, hidle, callOf]
  exact linearizable_of_abst Sys.atomic
    (fun _ _ _ inv hm hstep => ⟨inv.step hm hstep, inv.step_goes hstep⟩) inv hcall hturn hrun

/-- **The queue is an atomic queue** for callers that push one at a time and
pop one at a time: every history of calls and returns is one of a bounded
FIFO list whose operations are atomic. -/
theorem linearizable_of_inTurn {size : UInt32} (h1 : 1 ≤ size.toNat) (h31 : size.toNat ≤ 2 ^ 31)
    (moves : List (ι × Label α)) (s : Sys ι α) (hturn : Along Sys.step InTurn (Sys.init ι size) moves)
    (hrun : run Sys.step (Sys.init ι size) moves = some s) :
    Linearizable fifoCall ⟨(queueSize size).toNat - 1, []⟩
      (history Sys.step Sys.mark (Sys.init ι size) moves) :=
  (init_turn h1 h31).linearizable (fun _ => rfl) hturn hrun

/-- Only `producer` pushes and only `consumer` pops. -/
def Pair (producer consumer : ι) (m : ι × Label α) : Prop :=
  (m.2.isPush = true → m.1 = producer) ∧ (m.2 = .pop → m.1 = consumer)

omit [Inhabited α] in
/-- A thread begins no call before its last one has returned. -/
theorem inTurn_of_pair {producer consumer : ι} {moves : List (ι × Label α)}
    (hpair : ∀ m ∈ moves, Pair producer consumer m) {s t : Sys ι α}
    (hpush : ∀ u, (s.pc u).isPush = true → u = producer)
    (hpop : ∀ u, (s.pc u).isPop = true → u = consumer) (hrun : run Sys.step s moves = some t) :
    Along Sys.step InTurn s moves := by
  induction moves generalizing s with
  | nil => trivial
  | cons m moves ih =>
    cases hstep : s.step m with
    | none => simp [run, hstep] at hrun
    | some s' =>
      rw [run_cons hstep] at hrun
      obtain ⟨hmove, hrest⟩ := List.forall_mem_cons.mp hpair
      obtain ⟨mem, pc, e, hact, rfl⟩ := step_act hstep
      refine ⟨?_, ?_⟩
      · have hidle := act_calls hact
        obtain ⟨t, l⟩ := m
        cases l with
        | push data =>
          intro u
          refine Bool.eq_false_iff.mpr fun hu => ?_
          rw [hpush u hu, ← hmove.1 rfl, hidle (Or.inl rfl)] at hu
          cases hu
        | pop =>
          intro u
          refine Bool.eq_false_iff.mpr fun hu => ?_
          rw [hpop u hu, ← hmove.2 rfl, hidle (Or.inr rfl)] at hu
          cases hu
        | go => trivial
        | spurious => trivial
      · rw [hstep]
        refine ih hrest (fun u hu => ?_) (fun u hu => ?_) hrun
        · by_cases hum : u = m.1
          · subst hum
            simp only [Function.update_self] at hu
            rcases act_isPush hact hu with h | h
            · exact hpush m.1 h
            · exact hmove.1 h
          · simp only [Function.update_of_ne hum] at hu
            exact hpush u hu
        · by_cases hum : u = m.1
          · subst hum
            simp only [Function.update_self] at hu
            rcases act_isPop hact hu with h | h
            · exact hpop m.1 h
            · exact hmove.2 h
          · simp only [Function.update_of_ne hum] at hu
            exact hpop u hu

/-- **One producer and one consumer** need nothing else to use the queue as an
atomic one. -/
theorem linearizable_of_pair {size : UInt32} (h1 : 1 ≤ size.toNat) (h31 : size.toNat ≤ 2 ^ 31)
    {producer consumer : ι} {moves : List (ι × Label α)} (hpair : ∀ m ∈ moves, Pair producer consumer m)
    {s : Sys ι α} (hrun : run Sys.step (Sys.init ι size) moves = some s) :
    Linearizable fifoCall ⟨(queueSize size).toNat - 1, []⟩
      (history Sys.step Sys.mark (Sys.init ι size) moves) :=
  (init_turn h1 h31).linearizable (fun _ => rfl)
    (inTurn_of_pair hpair (fun _ hu => Bool.noConfusion hu) (fun _ hu => Bool.noConfusion hu) hrun) hrun

end Runs

/-- On a queue of two slots with room for one: a push finds it full, the pop
makes room before it is refused. -/
def refusedLate (producer consumer : ι) : List (ι × Label Nat) :=
  pushMoves producer 10 ++ [(producer, .push 20), (producer, .go), (consumer, .pop)] ++
    List.replicate 4 (consumer, .go) ++ [(producer, .go), (consumer, .go)]

theorem linearizable_refusedLate :
    Linearizable fifoCall (⟨1, []⟩ : Fifo Nat)
      [((0 : Fin 2), .call (.push 10)), (0, .ret (.pushed true)), (0, .call (.push 20)), (1, .call .pop),
        (0, .ret (.pushed false)), (1, .ret (.popped (some 10)))] := by
  have hhistory : history Sys.step Sys.mark (Sys.init (Fin 2) 2) (refusedLate 0 1) =
      [(0, .call (.push 10)), (0, .ret (.pushed true)), (0, .call (.push 20)), (1, .call .pop),
        (0, .ret (.pushed false)), (1, .ret (.popped (some 10)))] := by decide
  obtain ⟨s, hrun⟩ := Option.isSome_iff_exists.mp
    (show (run Sys.step (Sys.init (Fin 2) 2) (refusedLate 0 1)).isSome = true by decide)
  rw [← hhistory]
  exact linearizable_of_inTurn (by decide) (by decide) (refusedLate 0 1) s (by decide) hrun

end TinyTcp.Ring
