/-
TinyTcp.Timers.SetInvariant — the set of timers stays ordered, and every
lookup in it succeeds.

`SetOk` is the invariant: the sequence of the set is strictly increasing
in deadline and address (`key`), its timers live at different addresses,
and a timer that has a callback is in the set. Each operation has a
specification lemma that says what it does to the objects and, up to the
order, to the set; that the order is right again is part of the lemma,
because every change of a deadline is made while the timer is out of the
set. The loop over the expired timers is the one place where several
timers are out at a time; `fireAll_spec` is its induction.

Nothing is assumed about the clock: a backward jump makes every timer due
(`TimerManager.due`), and deadlines may wrap.
-/
import TinyTcp.Timers.Manager
import Mathlib.Data.Prod.Lex
import Mathlib.Order.WithBot

namespace TinyTcp.Timers

open TinyTcp.Lib

variable {ι A κ : Type}

/-! ## The order -/

section Order

variable [LinearOrder A]

/-- What the comparator compares: the deadline, then the address; a null
pointer comes first. -/
def stamp : Option (Timer A κ) → WithBot (ℕ ×ₗ A)
  | none => ⊥
  | some t => ((toLex (t.next.toNat, t.addr) : ℕ ×ₗ A) : WithBot (ℕ ×ₗ A))

theorem comparator_iff (lhs rhs : Option (Timer A κ)) :
    comparator lhs rhs = true ↔ stamp lhs < stamp rhs := by
  cases lhs with
  | none =>
    cases rhs with
    | none => simp [comparator, stamp]
    | some r => simp [comparator, stamp, WithBot.bot_lt_coe]
  | some l =>
    cases rhs with
    | none => simp [comparator, stamp]
    | some r =>
      simp only [comparator, stamp, WithBot.coe_lt_coe, Prod.Lex.toLex_lt_toLex,
        UInt64.lt_iff_toNat_lt]
      split
      · rename_i hlt
        simp [hlt]
      · split
        · rename_i hnot hgt
          simp only [Bool.false_eq_true, false_iff]
          omega
        · rename_i hnot hgt
          have heq : l.next.toNat = r.next.toNat := by omega
          simp [heq]

namespace TimerManager

variable (m : TimerManager ι A κ)

def key (h : ι) : WithBot (ℕ ×ₗ A) := stamp (m.timer h)

theorem compares (l : List ι) (h : ι) : OrderedSet.Compares m.less m.key l h :=
  fun k _ => ⟨comparator_iff (m.timer k) (m.timer h), comparator_iff (m.timer h) (m.timer k)⟩

end TimerManager

end Order

namespace TimerManager

variable [DecidableEq ι] (m : TimerManager ι A κ)

@[simp] theorem setTimer_timers (h : ι) (t : Timer A κ) : (m.setTimer h t).timers = m.timers := rfl

@[simp] theorem setTimer_self (h : ι) (t : Timer A κ) : (m.setTimer h t).timer h = some t := by
  rw [setTimer]
  exact Function.update_self h _ m.timer

@[simp] theorem setTimer_other {h k : ι} (hk : k ≠ h) (t : Timer A κ) :
    (m.setTimer h t).timer k = m.timer k := by
  rw [setTimer]
  exact Function.update_of_ne hk _ m.timer

end TimerManager

variable {m : TimerManager ι A κ}

/-! ## Timers at different addresses -/

theorem fired_addr (now : UInt64) (t : Timer A κ) : (t.fired now).addr = t.addr := by
  rw [Timer.fired]
  split
  · rfl
  · rfl

/-- Different timers, which exist, at different addresses. -/
structure Distinct (m : TimerManager ι A κ) (l : List ι) : Prop where
  nodup : l.Nodup
  exist : ∀ h ∈ l, ∃ t, m.timer h = some t
  addrs : ∀ h ∈ l, ∀ k ∈ l, ∀ t u, m.timer h = some t → m.timer k = some u → t.addr = u.addr → h = k

theorem Distinct.perm {l l' : List ι} (d : Distinct m l) (hp : l.Perm l') : Distinct m l' where
  nodup := hp.nodup_iff.mp d.nodup
  exist := fun h hh => d.exist h (hp.mem_iff.mpr hh)
  addrs := fun h hh k hk => d.addrs h (hp.mem_iff.mpr hh) k (hp.mem_iff.mpr hk)

theorem Distinct.sublist {l l' : List ι} (d : Distinct m l) (hs : l'.Sublist l) : Distinct m l' where
  nodup := d.nodup.sublist hs
  exist := fun h hh => d.exist h (hs.subset hh)
  addrs := fun h hh k hk => d.addrs h (hs.subset hh) k (hs.subset hk)

/-- A timer of the list changes, and stays where it is. -/
theorem Distinct.update [DecidableEq ι] {l : List ι} (d : Distinct m l) {h : ι} {t t' : Timer A κ}
    (ht : m.timer h = some t) (haddr : t'.addr = t.addr) {m' : TimerManager ι A κ}
    (hm' : m'.timer = (m.setTimer h t').timer) : Distinct m' l where
  nodup := d.nodup
  exist := by
    intro k hk
    rw [hm']
    by_cases hkh : k = h
    · exact ⟨t', by rw [hkh, TimerManager.setTimer_self]⟩
    · rw [m.setTimer_other hkh]
      exact d.exist k hk
  addrs := by
    -- the address behind a handle is the one it was
    have hback : ∀ k u, (m.setTimer h t').timer k = some u →
        ∃ u₀, m.timer k = some u₀ ∧ u₀.addr = u.addr := by
      intro k u hu
      by_cases hkh : k = h
      · subst hkh
        rw [m.setTimer_self, Option.some.injEq] at hu
        exact ⟨t, ht, by rw [← hu, haddr]⟩
      · rw [m.setTimer_other hkh] at hu
        exact ⟨u, hu, rfl⟩
    intro k hk k' hk' u u' hu hu' heq
    rw [hm'] at hu hu'
    obtain ⟨v, hv, hva⟩ := hback k u hu
    obtain ⟨v', hv', hva'⟩ := hback k' u' hu'
    exact d.addrs k hk k' hk' v v' hv hv' (by rw [hva, hva', heq])

/-- A timer at another address has another key. -/
theorem Distinct.key_ne [LinearOrder A] {l : List ι} {h : ι} (d : Distinct m (h :: l)) {k : ι} (hk : k ∈ l) :
    m.key k ≠ m.key h := by
  obtain ⟨t, ht⟩ := d.exist h List.mem_cons_self
  obtain ⟨u, hu⟩ := d.exist k (List.mem_cons_of_mem h hk)
  intro heq
  rw [TimerManager.key, TimerManager.key, ht, hu, stamp, stamp, WithBot.coe_inj] at heq
  have haddr : u.addr = t.addr := congrArg (fun p => (ofLex p).2) heq
  have hsame := d.addrs k (List.mem_cons_of_mem h hk) h List.mem_cons_self u t hu ht haddr
  exact (List.nodup_cons.mp d.nodup).1 (hsame ▸ hk)

/-! ## Deadlines -/

/-- The clock has rolled over, or has reached the deadline. -/
def TimerManager.due (m : TimerManager ι A κ) (now : UInt64) (h : ι) : Bool :=
  (m.detectClockRollOver now).1 || (m.next h).any (· ≤ now)

theorem due_of_rollOver {now : UInt64} (hroll : (m.detectClockRollOver now).1 = true) (h : ι) :
    m.due now h = true := by
  rw [TimerManager.due, hroll, Bool.true_or]

theorem due_iff {now : UInt64} (hroll : (m.detectClockRollOver now).1 = false) {h : ι}
    {t : Timer A κ} (ht : m.timer h = some t) : m.due now h = true ↔ t.next ≤ now := by
  rw [TimerManager.due, hroll, Bool.false_or, TimerManager.next, ht]
  simp

theorem getNextTime_spec (m : TimerManager ι A κ) (now : UInt64) :
    (m.getNextTime now).2 = { m with tickled := false } := by
  rw [TimerManager.getNextTime]
  dsimp only
  split
  · rfl
  · split
    · rfl
    · rfl

/-! ## Taking out and putting in -/

variable [LinearOrder A]

/-- A timer further back in the order has no earlier deadline. -/
theorem next_le_of_key_le {h k : ι} {t u : Timer A κ} (ht : m.timer h = some t)
    (hu : m.timer k = some u) (hle : m.key h ≤ m.key k) : t.next ≤ u.next := by
  rw [TimerManager.key, TimerManager.key, ht, hu, stamp, stamp, WithBot.coe_le_coe,
    Prod.Lex.toLex_le_toLex] at hle
  rw [UInt64.le_iff_toNat_le]
  rcases hle with hlt | ⟨heq, -⟩
  · exact Nat.le_of_lt hlt
  · exact Nat.le_of_eq heq

/-- The order of the other timers does not notice a change of this one. -/
theorem sorted_setTimer [DecidableEq ι] {l : List ι} (hs : OrderedSet.Sorted m.key l) {h : ι} (hh : h ∉ l)
    (t : Timer A κ) {m' : TimerManager ι A κ} (hm' : m'.timer = (m.setTimer h t).timer) :
    OrderedSet.Sorted m'.key l := by
  refine hs.congr fun k hk => ?_
  have hkh : k ≠ h := fun heq => hh (heq ▸ hk)
  rw [TimerManager.key, hm', m.setTimer_other hkh]
  rfl

/-- A timer that is out of the set goes in at its place. -/
theorem insert_spec {l : List ι} (hs : OrderedSet.Sorted m.key l) {h : ι}
    (d : Distinct m (h :: l)) :
    OrderedSet.Sorted m.key (OrderedSet.insert m.less l h).2 ∧
      (OrderedSet.insert m.less l h).2.Perm (h :: l) ∧
      ((OrderedSet.insert m.less l h).1 = 0 ↔ ∀ k ∈ l, m.key h < m.key k) :=
  hs.insert_new (m.compares l h) fun _ hk => d.key_ne hk

/-! ## The invariant -/

structure SetOk (m : TimerManager ι A κ) : Prop where
  sorted : OrderedSet.Sorted m.key m.timers
  distinct : Distinct m m.timers
  live : ∀ h t, m.timer h = some t → t.cb.isSome = true → h ∈ m.timers

/-- What a lookup of a timer of the set finds. -/
theorem SetOk.find (ok : SetOk m) {h : ι} (hh : h ∈ m.timers) :
    ∃ it, OrderedSet.find m.less m.timers h = some it ∧ m.timers[it]? = some h ∧
      OrderedSet.Sorted m.key (m.timers.eraseIdx it) ∧
      m.timers.Perm (h :: m.timers.eraseIdx it) :=
  ok.sorted.find_mem (m.compares m.timers h) hh

/-- With the earliest deadline ahead, nothing is due. -/
theorem due_of_head (sorted : OrderedSet.Sorted m.key m.timers) (d : Distinct m m.timers)
    {now : UInt64} (hroll : (m.detectClockRollOver now).1 = false)
    (hahead : (m.timers.head?.bind m.next).any (now < ·) = true) {h : ι} (hh : h ∈ m.timers) :
    m.due now h = false := by
  cases hl : m.timers with
  | nil =>
    rw [hl] at hh
    cases hh
  | cons k rest =>
    have hk : k ∈ m.timers := hl ▸ List.mem_cons_self
    obtain ⟨t, ht⟩ := d.exist h hh
    obtain ⟨u, hu⟩ := d.exist k hk
    have hle : u.next ≤ t.next := by
      refine next_le_of_key_le hu ht ?_
      have hs := sorted
      rw [hl] at hs hh
      exact hs.head_le hh
    have hlt : now < u.next := by simpa [hl, TimerManager.next, hu] using hahead
    rw [← Bool.not_eq_true, due_iff hroll ht]
    rw [UInt64.lt_iff_toNat_lt] at hlt
    rw [UInt64.le_iff_toNat_le] at hle ⊢
    omega

/-- The iterator of the source stops behind the timers that are due. -/
theorem expiredEnd_spec (sorted : OrderedSet.Sorted m.key m.timers) (d : Distinct m m.timers)
    (now : UInt64) (probe : A) :
    m.timers.take (m.expiredEnd now probe (m.detectClockRollOver now).1)
        = m.timers.filter (m.due now) ∧
      m.timers.drop (m.expiredEnd now probe (m.detectClockRollOver now).1)
        = m.timers.filter (fun h => !m.due now h) := by
  cases hroll : (m.detectClockRollOver now).1 with
  | true =>
    refine OrderedSet.take_eq_filter (fun h _ => due_of_rollOver hroll h) fun h hh => ?_
    rw [TimerManager.expiredEnd, if_pos rfl,
      List.drop_of_length_le (Nat.le_add_right m.timers.length _)] at hh
    cases hh
  | false =>
    let below : ι → Bool := fun h => comparator (m.timer h) (some (.ofNext probe now))
    let it := OrderedSet.lowerBound below m.timers
    let same : ι → Bool := fun h => m.next h == some now
    let again := OrderedSet.lowerBound same (m.timers.drop it)
    have hend : m.expiredEnd now probe false = it + again := rfl
    have hsplit : m.timers.drop it = m.timers.filter (fun h => !below h) := by
      refine (sorted.split fun a _ b _ hab hb => ?_).2
      exact (comparator_iff _ _).mpr (lt_trans hab ((comparator_iff _ _).mp hb))
    refine OrderedSet.take_eq_filter (fun h hh => ?_) fun h hh => ?_
    · -- passed over by the search, or by the loop behind it
      rw [hend, List.take_add, List.mem_append] at hh
      rcases hh with hh | hh
      · obtain ⟨t, ht⟩ := d.exist h ((List.take_sublist _ _).subset hh)
        have hlt : below h = true := OrderedSet.of_mem_take_lowerBound hh
        rw [comparator_iff, ht, stamp, stamp, WithBot.coe_lt_coe, Prod.Lex.toLex_lt_toLex] at hlt
        rw [due_iff hroll ht, UInt64.le_iff_toNat_le]
        rcases hlt with hlt | ⟨heq, -⟩
        · exact Nat.le_of_lt hlt
        · exact Nat.le_of_eq heq
      · have heq : same h = true := OrderedSet.of_mem_take_lowerBound hh
        rw [beq_iff_eq] at heq
        rw [TimerManager.due, heq]
        simp
    · -- behind the first one whose deadline is ahead
      rw [hend, ← List.drop_drop] at hh
      cases hrest : (m.timers.drop it).drop again with
      | nil =>
        rw [hrest] at hh
        cases hh
      | cons k rest =>
        have hsub : (k :: rest).Sublist m.timers := by
          rw [← hrest]
          exact (List.drop_sublist _ _).trans (List.drop_sublist _ _)
        obtain ⟨u, hu⟩ := d.exist k (hsub.subset List.mem_cons_self)
        rw [hrest] at hh
        obtain ⟨t, ht⟩ := d.exist h (hsub.subset hh)
        have hsorted : OrderedSet.Sorted m.key (k :: rest) := List.Pairwise.sublist hsub sorted
        have hle : u.next ≤ t.next := next_le_of_key_le hu ht (hsorted.head_le hh)
        have hge : ¬below k = true := by
          have hmem : k ∈ m.timers.filter (fun h => !below h) := by
            rw [← hsplit]
            exact (List.drop_sublist again _).subset (hrest ▸ List.mem_cons_self)
          simpa using (List.mem_filter.mp hmem).2
        have hstop : same k = false := OrderedSet.lowerBound_stops hrest
        have hne : u.next ≠ now := by
          intro heq
          have htrue : (m.next k == some now) = true := by
            rw [TimerManager.next, hu, Option.map_some, heq, beq_self_eq_true]
          exact Bool.false_ne_true (hstop.symm.trans htrue)
        rw [comparator_iff, hu, stamp, stamp, WithBot.coe_lt_coe, Prod.Lex.toLex_lt_toLex] at hge
        have hnot : ¬u.next.toNat < now.toNat := fun hlt => hge (.inl hlt)
        rw [ne_eq, ← UInt64.toNat_inj] at hne
        rw [← Bool.not_eq_true, due_iff hroll ht, UInt64.le_iff_toNat_le]
        rw [UInt64.le_iff_toNat_le] at hle
        omega

variable [DecidableEq ι]

/-- One timer loses its callback and its place. -/
theorem SetOk.remove {m' : TimerManager ι A κ} (ok : SetOk m) {h : ι} {t t' : Timer A κ}
    (ht : m.timer h = some t) (htimer : m'.timer = (m.setTimer h t').timer)
    (haddr : t'.addr = t.addr) (hcb : t'.cb = none) (hperm : m.timers.Perm (h :: m'.timers))
    (hsorted : OrderedSet.Sorted m'.key m'.timers) : SetOk m' where
  sorted := hsorted
  distinct :=
    ((ok.distinct.update ht haddr htimer).perm hperm).sublist (List.sublist_cons_self h _)
  live := by
    intro k u hu hlive
    by_cases hk : k = h
    · subst hk
      rw [htimer, m.setTimer_self, Option.some.injEq] at hu
      rw [← hu, hcb] at hlive
      cases hlive
    · rw [htimer, m.setTimer_other hk] at hu
      have hmem := hperm.mem_iff.mp (ok.live k u hu hlive)
      exact (List.mem_cons.mp hmem).resolve_left hk

/-! ## The operations on one timer -/

/-- `h` has become `t'`, is in the set at its place, and everything else is
what it was. -/
structure Placed (m : TimerManager ι A κ) (h : ι) (t' : Timer A κ) (m' : TimerManager ι A κ) :
    Prop where
  timer : m'.timer = (m.setTimer h t').timer
  perm : m'.timers.Perm (h :: m.timers.erase h)
  sorted : OrderedSet.Sorted m'.key m'.timers
  distinct : Distinct m' m'.timers
  previousTime : m'.previousTime = m.previousTime

/-- A member of the set changes while it is out of it. -/
theorem SetOk.place (ok : SetOk m) {h : ι} {t : Timer A κ} (ht : m.timer h = some t)
    (hin : h ∈ m.timers) (t' : Timer A κ) (haddr : t'.addr = t.addr) :
    ∃ it l, OrderedSet.find m.less m.timers h = some it ∧ m.timers.eraseIdx it = l ∧
      m.timers.Perm (h :: l) ∧
      let m₁ := ({ m with timers := l } : TimerManager ι A κ).setTimer h t'
      OrderedSet.Sorted m₁.key (OrderedSet.insert m₁.less l h).2 ∧
      (OrderedSet.insert m₁.less l h).2.Perm (h :: m.timers.erase h) ∧
      Distinct m₁ (OrderedSet.insert m₁.less l h).2 ∧
      ((OrderedSet.insert m₁.less l h).1 = 0 ↔ ∀ k ∈ l, m₁.key h < m₁.key k) := by
  obtain ⟨it, hfind, -, hsorted, hperm⟩ := ok.find hin
  refine ⟨it, _, hfind, rfl, hperm, ?_⟩
  have hout : h ∉ m.timers.eraseIdx it :=
    (List.nodup_cons.mp (hperm.nodup_iff.mp ok.distinct.nodup)).1
  let out : TimerManager ι A κ := { m with timers := m.timers.eraseIdx it }
  have hd : Distinct (out.setTimer h t') (h :: m.timers.eraseIdx it) :=
    (ok.distinct.perm hperm).update ht haddr rfl
  have hs : OrderedSet.Sorted (out.setTimer h t').key (m.timers.eraseIdx it) :=
    sorted_setTimer hsorted hout t' rfl
  obtain ⟨hs', hp', hfront⟩ := insert_spec hs hd
  refine ⟨hs', hp'.trans (List.Perm.cons h ?_), hd.perm hp'.symm, hfront⟩
  have := hperm.erase h
  rw [List.erase_cons_head] at this
  exact this.symm

theorem Placed.mem {m' : TimerManager ι A κ} {h : ι} {t' : Timer A κ} (p : Placed m h t' m') :
    h ∈ m'.timers := p.perm.mem_iff.mpr List.mem_cons_self

theorem Placed.mem_iff {m' : TimerManager ι A κ} {h : ι} {t' : Timer A κ} (p : Placed m h t' m')
    {k : ι} (hk : k ≠ h) : k ∈ m'.timers ↔ k ∈ m.timers := by
  rw [p.perm.mem_iff, List.mem_cons, List.mem_erase_of_ne hk]
  exact or_iff_right hk

theorem SetOk.placed {m' : TimerManager ι A κ} (ok : SetOk m) {h : ι} {t' : Timer A κ}
    (p : Placed m h t' m') : SetOk m' where
  sorted := p.sorted
  distinct := p.distinct
  live := by
    intro k u hu hcb
    rw [p.perm.mem_iff, List.mem_cons]
    by_cases hk : k = h
    · exact .inl hk
    · rw [p.timer, m.setTimer_other hk] at hu
      exact .inr ((List.mem_erase_of_ne hk).mpr (ok.live k u hu hcb))

theorem cancel_spec (ok : SetOk m) {h : ι} {t : Timer A κ} (ht : m.timer h = some t)
    (hcb : t.cb.isSome = true) :
    ∃ m', m.cancel h = some (true, m') ∧ m'.timer = (m.setTimer h { t with cb := none }).timer ∧
      m.timers.Perm (h :: m'.timers) ∧ OrderedSet.Sorted m'.key m'.timers ∧
      m'.tickled = m.tickled ∧ m'.previousTime = m.previousTime := by
  have hin := ok.live h t ht hcb
  -- the comparator does not look at the callback
  have hkey : (m.setTimer h { t with cb := none }).key = m.key := by
    funext k
    by_cases hk : k = h
    · subst hk
      rw [TimerManager.key, m.setTimer_self, TimerManager.key, ht]
      rfl
    · rw [TimerManager.key, m.setTimer_other hk]
      rfl
  have hs : OrderedSet.Sorted (m.setTimer h { t with cb := none }).key m.timers := by
    rw [hkey]
    exact ok.sorted
  obtain ⟨it, hfind, -, hsorted, hperm⟩ :=
    hs.find_mem ((m.setTimer h { t with cb := none }).compares m.timers h) hin
  refine ⟨{ m.setTimer h { t with cb := none } with timers := m.timers.eraseIdx it }, ?_, rfl, hperm,
    hsorted, rfl, rfl⟩
  simp only [TimerManager.cancel, ht, hcb, if_true, TimerManager.setTimer_timers, hfind]

theorem cancel_empty {h : ι} {t : Timer A κ} (ht : m.timer h = some t) (hcb : t.cb = none) :
    m.cancel h = some (false, m) := by
  simp [TimerManager.cancel, ht, hcb]

theorem refresh_spec (ok : SetOk m) (now : UInt64) {h : ι} {t : Timer A κ}
    (ht : m.timer h = some t) (hcb : t.cb.isSome = true) :
    ∃ m', m.refresh now h = some (true, m') ∧ Placed m h { t with next := now + t.ms } m' ∧
      m'.tickled = m.tickled := by
  obtain ⟨it, l, hfind, hl, hperm, hsorted, hperm', hdist, -⟩ :=
    ok.place ht (ok.live h t ht hcb) { t with next := now + t.ms } rfl
  subst hl
  have hnone : t.cb.isNone = false := by simpa using hcb
  let out : TimerManager ι A κ :=
    ({ m with timers := m.timers.eraseIdx it } : TimerManager ι A κ).setTimer h
      { t with next := now + t.ms }
  have hrun : m.refresh now h =
      some (true, { out with timers := (OrderedSet.insert out.less out.timers h).2 }) := by
    simp only [TimerManager.refresh, ht, hnone, hfind, Bool.false_eq_true, if_false]
    rfl
  exact ⟨_, hrun, ⟨rfl, hperm', hsorted, ⟨hdist.nodup, hdist.exist, hdist.addrs⟩, rfl⟩, rfl⟩

theorem refresh_empty (now : UInt64) {h : ι} {t : Timer A κ} (ht : m.timer h = some t)
    (hcb : t.cb = none) : m.refresh now h = some (false, m) := by
  simp [TimerManager.refresh, ht, hcb]

/-- The start of the new period. -/
def Timer.start (t : Timer A κ) (now : UInt64) (fromNow : Bool) : UInt64 :=
  if fromNow then now else t.next - t.ms

/-- Whether the private `add_timer` notifies when it puts in `h`. -/
def Front (m : TimerManager ι A κ) (h : ι) (m' : TimerManager ι A κ) (notified : Bool) : Prop :=
  (notified = true ↔ m.tickled = false ∧ ∀ k ∈ m.timers.erase h, m'.key h < m'.key k) ∧
    m'.tickled = (m.tickled || notified)

theorem reset_spec (ok : SetOk m) (now : UInt64) {h : ι} {t : Timer A κ} (ht : m.timer h = some t)
    (hcb : t.cb.isSome = true) {ms : UInt64} {fromNow : Bool} (hnew : ¬(ms = t.ms ∧ fromNow = false)) :
    ∃ m' notified, m.reset now h ms fromNow = some ((true, notified), m') ∧
      Placed m h { t with ms := ms, next := t.start now fromNow + ms } m' ∧
      Front m h m' notified := by
  obtain ⟨it, l, hfind, hl, hperm, hsorted, hperm', hdist, hfront⟩ :=
    ok.place ht (ok.live h t ht hcb) { t with ms := ms, next := t.start now fromNow + ms } rfl
  subst hl
  have hnone : t.cb.isNone = false := by simpa using hcb
  let out : TimerManager ι A κ :=
    ({ m with timers := m.timers.eraseIdx it } : TimerManager ι A κ).setTimer h
      { t with ms := ms, next := t.start now fromNow + ms }
  have hrun : m.reset now h ms fromNow =
      some ((true, (out.insertTimer h).1), (out.insertTimer h).2) := by
    simp only [TimerManager.reset, ht, if_neg hnew, hnone, hfind, Bool.false_eq_true, if_false]
    rfl
  refine ⟨_, _, hrun, ⟨rfl, hperm', hsorted, ⟨hdist.nodup, hdist.exist, hdist.addrs⟩, rfl⟩, ?_, rfl⟩
  have herase : (m.timers.eraseIdx it).Perm (m.timers.erase h) := by
    have := hperm.erase h
    rw [List.erase_cons_head] at this
    exact this.symm
  show ((OrderedSet.insert _ _ h).1 == 0 && !m.tickled) = true ↔ _
  rw [Bool.and_eq_true, beq_iff_eq, Bool.not_eq_true', and_comm]
  refine and_congr_right fun _ => ?_
  refine hfront.trans ⟨fun hall k hk => hall k (herase.mem_iff.mpr hk),
    fun hall k hk => hall k (herase.mem_iff.mp hk)⟩

theorem reset_same (now : UInt64) {h : ι} {t : Timer A κ} (ht : m.timer h = some t) :
    m.reset now h t.ms false = some ((true, false), m) := by
  simp [TimerManager.reset, ht]

theorem reset_empty (now : UInt64) {h : ι} {t : Timer A κ} (ht : m.timer h = some t)
    (hcb : t.cb = none) {ms : UInt64} {fromNow : Bool} (hnew : ¬(ms = t.ms ∧ fromNow = false)) :
    m.reset now h ms fromNow = some ((false, false), m) := by
  simp [TimerManager.reset, ht, hcb, hnew]

theorem addTimer_spec (ok : SetOk m) (now : UInt64) {h : ι} (hnew : m.timer h = none) {addr : A}
    (haddr : ∀ k ∈ m.timers, (m.timer k).map Timer.addr ≠ some addr) (ms : UInt64)
    (cb : Option κ) (recurring : Bool) :
    Placed m h (.create now addr ms cb recurring) (m.addTimer now h addr ms cb recurring).2 ∧
      Front m h (m.addTimer now h addr ms cb recurring).2
        (m.addTimer now h addr ms cb recurring).1 := by
  have hout : h ∉ m.timers := by
    intro hin
    obtain ⟨t, ht⟩ := ok.distinct.exist h hin
    rw [hnew] at ht
    cases ht
  let out : TimerManager ι A κ := m.setTimer h (.create now addr ms cb recurring)
  have hother : ∀ k ∈ m.timers, out.timer k = m.timer k := by
    intro k hk
    have hkh : k ≠ h := fun heq => hout (heq ▸ hk)
    exact m.setTimer_other hkh _
  have hd : Distinct out (h :: m.timers) := by
    refine ⟨List.nodup_cons.mpr ⟨hout, ok.distinct.nodup⟩, ?_, ?_⟩
    · intro k hk
      rcases List.mem_cons.mp hk with rfl | hk'
      · exact ⟨_, m.setTimer_self k _⟩
      · rw [hother k hk']
        exact ok.distinct.exist k hk'
    · -- nobody in the set lives at the address of the new timer
      have hne : ∀ k ∈ m.timers, ∀ t u, out.timer h = some t → out.timer k = some u →
          t.addr ≠ u.addr := by
        intro k hk t u ht hu heq
        rw [m.setTimer_self, Option.some.injEq] at ht
        rw [hother k hk] at hu
        refine haddr k hk ?_
        rw [hu, Option.map_some, ← heq, ← ht]
        rfl
      intro k hk k' hk' t u ht hu heq
      rcases List.mem_cons.mp hk with rfl | hk₁ <;> rcases List.mem_cons.mp hk' with rfl | hk₂
      · rfl
      · exact absurd heq (hne k' hk₂ t u ht hu)
      · exact absurd heq.symm (hne k hk₁ u t hu ht)
      · rw [hother k hk₁] at ht
        rw [hother k' hk₂] at hu
        exact ok.distinct.addrs k hk₁ k' hk₂ t u ht hu heq
  have hs : OrderedSet.Sorted out.key m.timers := sorted_setTimer ok.sorted hout _ rfl
  obtain ⟨hsorted, hperm, hfront⟩ := insert_spec hs hd
  have herase : m.timers.erase h = m.timers := List.erase_of_not_mem hout
  have hd' : Distinct out (OrderedSet.insert out.less m.timers h).2 := hd.perm hperm.symm
  refine ⟨⟨rfl, ?_, hsorted, ⟨hd'.nodup, hd'.exist, hd'.addrs⟩, rfl⟩, ?_, rfl⟩
  · rw [herase]
    exact hperm
  · rw [herase]
    show ((OrderedSet.insert _ _ h).1 == 0 && !m.tickled) = true ↔ _
    rw [Bool.and_eq_true, beq_iff_eq, Bool.not_eq_true', and_comm]
    exact and_congr_right fun _ => hfront

/-! ## The loop over the expired timers -/

/-- The timer is armed again when it fires. -/
def TimerManager.recurs (m : TimerManager ι A κ) (h : ι) : Bool :=
  (m.timer h).any Timer.recurring

/-- The timers `hs` have fired: each is armed again, and back in the set,
or has lost its callback. -/
structure Fired (now : UInt64) (m : TimerManager ι A κ) (hs : List ι) (m' : TimerManager ι A κ) :
    Prop where
  timer : ∀ h, m'.timer h = if h ∈ hs then (m.timer h).map (Timer.fired now) else m.timer h
  perm : m'.timers.Perm (hs.filter m.recurs ++ m.timers)
  sorted : OrderedSet.Sorted m'.key m'.timers
  tickled : m'.tickled = m.tickled
  previousTime : m'.previousTime = m.previousTime

theorem fire_recurring (now : UInt64) {h : ι} {t : Timer A κ} (ht : m.timer h = some t)
    (hr : t.recurring = true) :
    m.fire now h = { m.setTimer h (t.fired now) with
      timers := (OrderedSet.insert (m.setTimer h (t.fired now)).less m.timers h).2 } := by
  simp only [TimerManager.fire, ht, hr, if_true]
  rfl

theorem fire_once (now : UInt64) {h : ι} {t : Timer A κ} (ht : m.timer h = some t)
    (hr : t.recurring = false) : m.fire now h = m.setTimer h (t.fired now) := by
  simp only [TimerManager.fire, ht, hr, Bool.false_eq_true, if_false]

theorem fire_spec (now : UInt64) {h : ι} {t : Timer A κ} (ht : m.timer h = some t)
    (hs : OrderedSet.Sorted m.key m.timers) (d : Distinct m (h :: m.timers)) :
    (m.fire now h).timer = (m.setTimer h (t.fired now)).timer ∧
      (m.fire now h).timers.Perm ([h].filter m.recurs ++ m.timers) ∧
      OrderedSet.Sorted (m.fire now h).key (m.fire now h).timers ∧
      (m.fire now h).tickled = m.tickled ∧ (m.fire now h).previousTime = m.previousTime := by
  have hout := (List.nodup_cons.mp d.nodup).1
  have hs' : OrderedSet.Sorted (m.setTimer h (t.fired now)).key m.timers :=
    sorted_setTimer hs hout _ rfl
  have hrecurs : m.recurs h = t.recurring := by
    rw [TimerManager.recurs, ht]
    rfl
  cases hr : t.recurring with
  | true =>
    have hd : Distinct (m.setTimer h (t.fired now)) (h :: m.timers) :=
      d.update ht (fired_addr now t) rfl
    obtain ⟨hsorted, hperm, -⟩ := insert_spec hs' hd
    have hone : [h].filter m.recurs = [h] := by simp [hrecurs, hr]
    rw [fire_recurring now ht hr, hone]
    exact ⟨rfl, hperm, hsorted, rfl, rfl⟩
  | false =>
    have hone : [h].filter m.recurs = [] := by simp [hrecurs, hr]
    rw [fire_once now ht hr, hone]
    exact ⟨rfl, List.Perm.refl _, hs', rfl, rfl⟩

/-- **The loop**: the timers are taken one after the other, none of them
twice, so each is changed as it was found. -/
theorem fireAll_spec (now : UInt64) : ∀ (hs : List ι) (m : TimerManager ι A κ),
    OrderedSet.Sorted m.key m.timers → Distinct m (hs ++ m.timers) →
    (TimerManager.fireAll now hs m).1 = hs.map (fun h => (h, (m.timer h).bind Timer.cb)) ∧
      Fired now m hs (TimerManager.fireAll now hs m).2
  | [], m, hs, _ => ⟨rfl, ⟨fun _ => rfl, List.Perm.refl _, hs, rfl, rfl⟩⟩
  | h :: hs, m, hsorted, d => by
      obtain ⟨t, ht⟩ := d.exist h List.mem_cons_self
      have hfront : Distinct m (h :: m.timers) :=
        d.sublist ((List.sublist_append_right hs m.timers).cons_cons h)
      obtain ⟨htimer, hperm, hsorted', htickled, hprev⟩ := fire_spec now ht hsorted hfront
      have hout : h ∉ hs := fun hin =>
        (List.nodup_cons.mp d.nodup).1 (List.mem_append_left m.timers hin)
      have hother : ∀ k, k ≠ h → (m.fire now h).timer k = m.timer k := fun k hk => by
        rw [htimer, m.setTimer_other hk]
      have hrest : (hs ++ ([h].filter m.recurs ++ m.timers)).Sublist (hs ++ ([h] ++ m.timers)) :=
        (List.filter_sublist.append_right m.timers).append_left hs
      have hd : Distinct (m.fire now h) (hs ++ (m.fire now h).timers) :=
        (((d.update ht (fired_addr now t) htimer).perm List.perm_middle.symm).sublist hrest).perm
          (hperm.symm.append_left hs)
      obtain ⟨hcbs, hfired⟩ := fireAll_spec now hs (m.fire now h) hsorted' hd
      have hsame : ∀ k ∈ hs, (m.fire now h).timer k = m.timer k := fun k hk =>
        hother k fun heq => hout (heq ▸ hk)
      have hrecurs : hs.filter (m.fire now h).recurs = hs.filter m.recurs := by
        refine List.filter_congr fun k hk => ?_
        rw [TimerManager.recurs, TimerManager.recurs, hsame k hk]
      refine ⟨?_, { timer := fun k => ?_, perm := ?_, sorted := hfired.sorted,
                    tickled := hfired.tickled.trans htickled,
                    previousTime := hfired.previousTime.trans hprev }⟩
      · show (h, (m.timer h).bind Timer.cb) :: (TimerManager.fireAll now hs (m.fire now h)).1 = _
        rw [hcbs, List.map_cons]
        refine congrArg (List.cons _) (List.map_congr_left fun k hk => ?_)
        rw [hsame k hk]
      · show (TimerManager.fireAll now hs (m.fire now h)).2.timer k = _
        rw [hfired.timer k]
        by_cases hk : k = h
        · subst hk
          rw [if_neg hout, if_pos List.mem_cons_self, htimer, m.setTimer_self, ht, Option.map_some]
        · rw [hother k hk]
          simp only [List.mem_cons, hk, false_or]
      · show (TimerManager.fireAll now hs (m.fire now h)).2.timers.Perm _
        refine hfired.perm.trans ?_
        rw [hrecurs]
        refine (hperm.append_left _).trans ?_
        rw [← List.append_assoc, show h :: hs = [h] ++ hs from rfl, List.filter_append]
        exact List.perm_append_comm.append_right m.timers

/-! ## Expiry -/

/-- **Expiry**: the callbacks of the timers that are due are taken, in the
order of the set, and these timers fire. -/
theorem listExpiredCb_spec (sorted : OrderedSet.Sorted m.key m.timers) (d : Distinct m m.timers)
    (now : UInt64) (probe : A) :
    (m.listExpiredCb now probe).1
        = (m.timers.filter (m.due now)).map (fun h => (h, (m.timer h).bind Timer.cb)) ∧
      (m.listExpiredCb now probe).2.previousTime
        = (if m.timers = [] then m.previousTime else now) ∧
      Fired now { m with
          timers := m.timers.filter (fun h => !m.due now h)
          previousTime := if m.timers = [] then m.previousTime else now }
        (m.timers.filter (m.due now)) (m.listExpiredCb now probe).2 := by
  by_cases hempty : m.timers = []
  · have hrun : m.listExpiredCb now probe = ([], m) := by
      rw [TimerManager.listExpiredCb, if_pos hempty]
    rw [hrun, if_pos hempty, hempty]
    refine ⟨rfl, rfl, { timer := fun _ => by simp, perm := ?_, sorted := sorted,
                        tickled := rfl, previousTime := rfl }⟩
    rw [hempty]
    exact List.Perm.refl _
  · rw [if_neg hempty]
    by_cases hahead : (!(m.detectClockRollOver now).1 &&
        (m.timers.head?.bind m.next).any (now < ·)) = true
    · have hrun : m.listExpiredCb now probe = ([], { m with previousTime := now }) := by
        rw [TimerManager.listExpiredCb, if_neg hempty]
        exact if_pos hahead
      rw [Bool.and_eq_true, Bool.not_eq_true'] at hahead
      have hnone : m.timers.filter (m.due now) = [] := by
        rw [List.filter_eq_nil_iff]
        intro h hh
        rw [due_of_head sorted d hahead.1 hahead.2 hh]
        exact Bool.false_ne_true
      have hall : m.timers.filter (fun h => !m.due now h) = m.timers := by
        rw [List.filter_eq_self]
        intro h hh
        rw [due_of_head sorted d hahead.1 hahead.2 hh]
        rfl
      rw [hrun, hnone, hall]
      exact ⟨rfl, rfl, { timer := fun _ => by simp, perm := List.Perm.refl _, sorted := sorted,
                         tickled := rfl, previousTime := rfl }⟩
    · obtain ⟨htake, hdrop⟩ := expiredEnd_spec sorted d now probe
      let rest : TimerManager ι A κ := { m with
        timers := m.timers.filter (fun h => !m.due now h)
        previousTime := now }
      have hrun : m.listExpiredCb now probe =
          TimerManager.fireAll now (m.timers.filter (m.due now)) rest := by
        rw [TimerManager.listExpiredCb, if_neg hempty]
        refine (if_neg hahead).trans ?_
        show TimerManager.fireAll now
          (m.timers.take (m.expiredEnd now probe (m.detectClockRollOver now).1)) { m with
            timers := m.timers.drop (m.expiredEnd now probe (m.detectClockRollOver now).1)
            previousTime := now } = _
        rw [htake, hdrop]
      have hperm : m.timers.Perm (m.timers.filter (m.due now) ++ rest.timers) :=
        (List.filter_append_perm (m.due now) m.timers).symm
      have hdist : Distinct m (m.timers.filter (m.due now) ++ rest.timers) :=
        d.perm hperm
      obtain ⟨hcbs, hfired⟩ := fireAll_spec now (m.timers.filter (m.due now)) rest
        (sorted.sublist List.filter_sublist)
        ⟨hdist.nodup, hdist.exist, hdist.addrs⟩
      rw [hrun]
      exact ⟨hcbs, hfired.previousTime, hfired⟩

section

variable {m' : TimerManager ι A κ} {now p : UInt64}

/-- A timer that was called is in the set again if it is recurring. -/
theorem Fired.mem_of_due
    (f : Fired now { m with
        timers := m.timers.filter (fun h => !m.due now h)
        previousTime := p } (m.timers.filter (m.due now)) m') {h : ι} {t : Timer A κ}
    (ht : m.timer h = some t) (hdue : h ∈ m.timers.filter (m.due now)) :
    h ∈ m'.timers ↔ t.recurring = true := by
  have hrecurs : m.recurs h = t.recurring := by
    rw [TimerManager.recurs, ht]
    rfl
  have hnot : h ∉ m.timers.filter (fun h => !m.due now h) := by
    intro hin
    have hno := (List.mem_filter.mp hin).2
    rw [(List.mem_filter.mp hdue).2] at hno
    cases hno
  rw [f.perm.mem_iff, List.mem_append, ← hrecurs]
  constructor
  · intro hin
    exact (List.mem_filter.mp (hin.resolve_right hnot)).2
  · intro hr
    exact .inl (List.mem_filter.mpr ⟨hdue, hr⟩)

/-- The others stay where they are. -/
theorem Fired.mem_of_not_due
    (f : Fired now { m with
        timers := m.timers.filter (fun h => !m.due now h)
        previousTime := p } (m.timers.filter (m.due now)) m') {h : ι}
    (hout : h ∉ m.timers.filter (m.due now)) : h ∈ m'.timers ↔ h ∈ m.timers := by
  rw [f.perm.mem_iff, List.mem_append]
  constructor
  · rintro (hin | hin)
    · exact absurd (List.mem_of_mem_filter hin) hout
    · exact List.mem_of_mem_filter hin
  · intro hin
    refine .inr (List.mem_filter.mpr ⟨hin, ?_⟩)
    cases hdue : m.due now h with
    | true => exact absurd (List.mem_filter.mpr ⟨hin, hdue⟩) hout
    | false => rfl

end

theorem SetOk.expired {m' : TimerManager ι A κ} (ok : SetOk m) {now p : UInt64}
    (f : Fired now { m with
        timers := m.timers.filter (fun h => !m.due now h)
        previousTime := p } (m.timers.filter (m.due now)) m') : SetOk m' where
  sorted := f.sorted
  distinct := by
    have hsub : ((m.timers.filter (m.due now)).filter m.recurs ++
        m.timers.filter (fun h => !m.due now h)).Sublist
        (m.timers.filter (m.due now) ++ m.timers.filter (fun h => !m.due now h)) :=
      List.filter_sublist.append_right _
    have hd := ((ok.distinct.perm (List.filter_append_perm (m.due now) m.timers).symm).sublist
      hsub).perm f.perm.symm
    -- firing leaves the addresses alone
    have hback : ∀ h u, m'.timer h = some u → ∃ u₀, m.timer h = some u₀ ∧ u₀.addr = u.addr := by
      intro h u hu
      rw [f.timer h] at hu
      split at hu
      · obtain ⟨u₀, hu₀, rfl⟩ := Option.map_eq_some_iff.mp hu
        exact ⟨u₀, hu₀, (fired_addr now u₀).symm⟩
      · exact ⟨u, hu, rfl⟩
    refine ⟨hd.nodup, fun h hh => ?_, fun h hh k hk t u ht hu heq => ?_⟩
    · obtain ⟨t, ht⟩ := hd.exist h hh
      rw [f.timer h]
      split
      · exact ⟨t.fired now, by rw [ht]; rfl⟩
      · exact ⟨t, ht⟩
    · obtain ⟨t₀, ht₀, hta⟩ := hback h t ht
      obtain ⟨u₀, hu₀, hua⟩ := hback k u hu
      exact hd.addrs h hh k hk t₀ u₀ ht₀ hu₀ (by rw [hta, hua, heq])
  live := by
    intro h t ht hcb
    rw [f.timer h] at ht
    split at ht
    · rename_i hin
      obtain ⟨t₀, ht₀, rfl⟩ := Option.map_eq_some_iff.mp ht
      refine (f.mem_of_due ht₀ hin).mpr ?_
      cases hr : t₀.recurring with
      | true => rfl
      | false => simp [Timer.fired, hr] at hcb
    · rename_i hout
      exact (f.mem_of_not_due hout).mpr (ok.live h t ht hcb)

end TinyTcp.Timers
