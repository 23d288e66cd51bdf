/-
TinyTcp.Sync.ThreadInvariant — what holds of the threads and their objects
in every state of a program.

Until the semaphore is posted nobody but `run` has access to the thread's
locals and to the object, so the two are what the first `n` lines of `run`
make of them (`starting`). Afterwards they have the properties of `Started`.
A `Phase` is one or the other.

A step changes the phase of the object whose thread it is a step of, and of
the object it has access to, if that is another one: `Inv.change` leaves
these two to be looked at.
-/
import TinyTcp.Sync.Thread
import Mathlib.Tactic.IntervalCases

namespace TinyTcp.Sync

open TinyTcp.Log

variable {κ : Type}

/-! ## What is known of an object and its thread -/

/-- The thread and the object after the first `n` steps of `run`. -/
def starting (p : ThreadPtr) (g : Created κ) : Nat → OsThread κ × Thread κ
  | 0 => (⟨g.pid, none, str "UNKNOW", [], .start p⟩, ⟨none, some g.tid, some g.cb, g.name, 0⟩)
  | n + 1 => (starting p g n).1.runStep (starting p g n).2

theorem starting_object (p : ThreadPtr) (g : Created κ) {n : Nat} (hn : n ≤ 4) :
    (starting p g n).1.pc.object = some p := by
  interval_cases n <;> rfl

theorem starting_semaphore (p : ThreadPtr) (g : Created κ) {n : Nat} (hn : n ≤ 4) :
    (starting p g n).2.semaphore = 0 := by
  interval_cases n <;> rfl

/-- The object and its thread when the semaphore has been posted. -/
structure Started (p : ThreadPtr) (g : Created κ) (th : OsThread κ) (o : Option (Thread κ))
    (owned : Bool) (runs : List κ) : Prop where
  pc : th.pc = .call (some g.cb) ∨ th.pc.begun = true
  pid : th.pid = g.pid
  this : th.this = some p
  osName : th.osName = g.name.take 15
  alive : owned = false → o.isSome = true
  obj : ∀ x, o = some x → x.pid = some g.pid ∧ x.cb = none ∧ x.name = th.threadName ∧
    x.semaphore = if owned then 0 else 1
  thread : ∀ x, o = some x → x.thread = none ∨ x.thread = some g.tid
  runs : runs = if th.pc.begun then [g.cb] else []

inductive Phase (p : ThreadPtr) (g : Created κ) :
    OsThread κ → Option (Thread κ) → Bool → List κ → Prop
  | starting (n : Nat) (hn : n ≤ 4) :
      Phase p g (starting p g n).1 (some (starting p g n).2) false []
  | started {th : OsThread κ} {o : Option (Thread κ)} {owned : Bool} {runs : List κ}
      (h : Started p g th o owned runs) : Phase p g th o owned runs

structure Inv (s : Threads κ) : Prop where
  phase : ∀ p g, s.created p = some g → ∃ th, s.os g.tid = some th ∧
    Phase p g th (s.mem p) (s.owned p) (s.runs g.tid)
  tid : ∀ p q g h, s.created p = some g → s.created q = some h → g.tid = h.tid → p = q
  thread : ∀ t th, s.os t = some th →
    (∃ p g, s.created p = some g ∧ g.tid = t) ∨ th.this = none ∧ th.pc.begun = true
  new : ∀ p, s.created p = none → s.mem p = none ∧ s.owned p = false
  unborn : ∀ t, s.os t = none → s.runs t = []
  wait : ∀ t p, (s.os t).map OsThread.pc = some (.wait p) ↔
    ∃ g, s.created p = some g ∧ g.maker = t ∧ s.owned p = false
  within : ∀ t c, (s.os t).map OsThread.pc = some (.within c) → s.owned c.object = true

/-! ## Steps of one object -/

section Phases

variable {p : ThreadPtr} {g : Created κ} {th : OsThread κ} {o : Option (Thread κ)} {owned : Bool}
  {runs : List κ} {x : Thread κ} {u : OsThread κ}

theorem Phase.of_begun (h : Phase p g th o owned runs) (hpc : th.pc.begun = true) :
    Started p g th o owned runs := by
  cases h with
  | starting n hn =>
    have hobject := starting_object p g hn
    rw [RunPc.object_of_begun hpc] at hobject
    cases hobject
  | started h => exact h

theorem Phase.of_call (h : Phase p g th o owned runs) {cb : Option κ} (hpc : th.pc = .call cb) :
    Started p g th o owned runs := by
  cases h with
  | starting n hn =>
    have hobject := starting_object p g hn
    rw [hpc] at hobject
    cases hobject
  | started h => exact h

/-- Where the thread is within its callback says nothing of the object. -/
theorem Phase.goes_on (h : Phase p g u o owned runs) {own : Prop} [Decidable own]
    (hu : own → u = th) (hpc : th.pc.begun = true) {pc : RunPc κ} (hpc' : pc.begun = true) :
    Phase p g (if own then { th with pc := pc } else u) o owned runs := by
  split
  · next hown =>
    cases hu hown
    have hstarted := h.of_begun hpc
    refine .started ⟨Or.inr hpc', hstarted.pid, hstarted.this, hstarted.osName, hstarted.alive,
      hstarted.obj, hstarted.thread, ?_⟩
    simpa [hpc, hpc'] using hstarted.runs
  · exact h

theorem Started.called (h : Started p g th o owned runs) {cb : κ} (hpc : th.pc = .call (some cb)) :
    Started p g { th with pc := .user } o owned (runs ++ [cb]) := by
  rcases h.pc with hcall | hcall
  · cases hpc.symm.trans hcall
    refine ⟨Or.inr rfl, h.pid, h.this, h.osName, h.alive, h.obj, h.thread, ?_⟩
    simp [h.runs, hpc, RunPc.begun]
  · rw [hpc] at hcall
    cases hcall

/-- One more line of `run`. -/
theorem Phase.run_step (h : Phase p g th o owned runs) {q : ThreadPtr}
    (hq : th.pc.object = some q) :
    q = p ∧ ∃ x, o = some x ∧
      Phase p g (th.runStep x).1 (some (th.runStep x).2) owned runs := by
  cases h with
  | starting n hn =>
    rw [starting_object p g hn] at hq
    cases hq
    refine ⟨rfl, _, rfl, ?_⟩
    rcases Nat.lt_or_eq_of_le hn with hlt | rfl
    · exact .starting (n + 1) hlt
    · refine .started ⟨Or.inl rfl, rfl, rfl, rfl, fun _ => rfl, ?_, ?_, rfl⟩
      · rintro x ⟨⟩
        exact ⟨rfl, rfl, rfl, rfl⟩
      · rintro x ⟨⟩
        exact Or.inr rfl
  | started h =>
    rcases h.pc with hpc | hpc
    · rw [hpc] at hq
      cases hq
    · rw [RunPc.object_of_begun hpc] at hq
      cases hq

/-- The constructor has waited for the semaphore. -/
theorem Phase.wait (h : Phase p g th (some x) false runs) (hx : x.semaphore ≠ 0) :
    Started p g th (some { x with semaphore := x.semaphore - 1 }) true runs := by
  cases h with
  | starting n hn => exact absurd (starting_semaphore p g hn) hx
  | started h =>
    obtain ⟨hpid, hcb, hname, hsem⟩ := h.obj x rfl
    have hthread := h.thread x rfl
    refine ⟨h.pc, h.pid, h.this, h.osName, nofun, ?_, ?_, h.runs⟩
    · rintro y ⟨⟩
      refine ⟨hpid, hcb, hname, ?_⟩
      simp [hsem]
    · rintro y ⟨⟩
      exact hthread

theorem Phase.alive (h : Phase p g th o owned runs) (howned : owned = false) : o.isSome = true := by
  cases h with
  | starting n hn => rfl
  | started h => exact h.alive howned

/-- `run` goes on or has posted the semaphore. -/
theorem Phase.posts (h : Phase p g th (some x) false runs) :
    th.pc.object = some p ∨ x.semaphore ≠ 0 := by
  cases h with
  | starting n hn => exact Or.inl (starting_object p g hn)
  | started h =>
    obtain ⟨-, -, -, hsem⟩ := h.obj x rfl
    exact Or.inr (by simp [hsem])

theorem Phase.of_owned (h : Phase p g th o true runs) : Started p g th o true runs := by
  cases h with
  | started h => exact h

/-- `join` and the destructor: the object loses its thread, or is gone. -/
theorem Started.release (h : Started p g th (some x) true runs)
    (ho : ∀ y, o = some y → y = { x with thread := none }) : Started p g th o true runs := by
  refine ⟨h.pc, h.pid, h.this, h.osName, nofun, fun y hy => ?_, fun y hy => ?_, h.runs⟩
  · rw [ho y hy]
    exact h.obj x rfl
  · rw [ho y hy]
    exact Or.inl rfl

theorem Started.set_name (h : Started p g th o owned runs) (name : Str) :
    Started p g { th with threadName := name } (o.map fun x => { x with name := name }) owned runs := by
  refine ⟨h.pc, h.pid, h.this, h.osName, fun hown => by simpa using h.alive hown, ?_, ?_, h.runs⟩
  · intro y hy
    obtain ⟨x, hx, rfl⟩ := Option.map_eq_some_iff.mp hy
    obtain ⟨hpid, hcb, -, hsem⟩ := h.obj x hx
    exact ⟨hpid, hcb, rfl, hsem⟩
  · intro y hy
    obtain ⟨x, hx, rfl⟩ := Option.map_eq_some_iff.mp hy
    exact h.thread x hx

end Phases

/-! ## Steps of the program -/

section Steps

variable {s : Threads κ} {t : Tid} {th : OsThread κ} {p : ThreadPtr} {o : Thread κ}

/-- A thread that is in `run` is that of an object. -/
theorem Inv.in_run (inv : Inv s) (hth : s.os t = some th) (hpc : th.pc.begun = false) :
    ∃ p g, s.created p = some g ∧ g.tid = t ∧
      Phase p g th (s.mem p) (s.owned p) (s.runs t) := by
  rcases inv.thread t th hth with ⟨p, g, hg, rfl⟩ | ⟨-, hbegun⟩
  · obtain ⟨th', hth', hphase⟩ := inv.phase p g hg
    rw [hth] at hth'
    cases hth'
    exact ⟨p, g, hg, rfl, hphase⟩
  · rw [hpc] at hbegun
    cases hbegun

/-- What is only for the record. -/
theorem Inv.goesStale (inv : Inv s) : Inv s.goesStale :=
  ⟨inv.phase, inv.tid, inv.thread, inv.new, inv.unborn, inv.wait, inv.within⟩

theorem Inv.clashes (inv : Inv s) : Inv s.clashes :=
  ⟨inv.phase, inv.tid, inv.thread, inv.new, inv.unborn, inv.wait, inv.within⟩

theorem Inv.handOver (inv : Inv s) (tid : Tid) : Inv (s.handOver tid) :=
  ⟨inv.phase, inv.tid, inv.thread, inv.new, inv.unborn, inv.wait, inv.within⟩

theorem Inv.of_this (inv : Inv s) (hth : s.os t = some th) (hthis : th.this = some p)
    (hpc : th.pc.begun = true) : ∃ g, s.created p = some g ∧ g.tid = t := by
  rcases inv.thread t th hth with ⟨q, g, hg, rfl⟩ | ⟨hnone, -⟩
  · obtain ⟨th', hth', hphase⟩ := inv.phase q g hg
    cases hth.symm.trans hth'
    cases hthis.symm.trans (hphase.of_begun hpc).this
    exact ⟨g, hg, rfl⟩
  · rw [hnone] at hthis
    cases hthis

/-- What a step of a thread that makes no other has to keep. -/
theorem Inv.change (inv : Inv s) {s' : Threads κ} (hth : s.os t = some th) (th' : OsThread κ)
    (hmain : th.this = none ∧ th.pc.begun = true → th'.this = none ∧ th'.pc.begun = true)
    (hcreated : s'.created = s.created) (hos : ∀ t', s'.os t' = if t' = t then some th' else s.os t')
    (hphase : ∀ p g u, s.created p = some g → s.os g.tid = some u →
      Phase p g u (s.mem p) (s.owned p) (s.runs g.tid) →
      Phase p g (if g.tid = t then th' else u) (s'.mem p) (s'.owned p) (s'.runs g.tid))
    (hnew : ∀ p, s.created p = none → s'.mem p = s.mem p ∧ s'.owned p = s.owned p)
    (hunborn : ∀ t', s.os t' = none → s'.runs t' = s.runs t')
    (hwait : ∀ t' p, (s'.os t').map OsThread.pc = some (.wait p) ↔
      (s.os t').map OsThread.pc = some (.wait p) ∧ (s.owned p = false → s'.owned p = false))
    (hwithin : ∀ c, th'.pc = .within c → s'.owned c.object = true)
    (howned : ∀ p, s'.owned p = false → s.owned p = false) : Inv s' := by
  refine ⟨fun p g hg => ?_, ?_, fun t' u hu => ?_, fun p hp => ?_, fun t' ht' => ?_, fun t' p => ?_,
    fun t' c hc => ?_⟩
  · rw [hcreated] at hg
    obtain ⟨u, hu, h⟩ := inv.phase p g hg
    refine ⟨_, ?_, hphase p g u hg hu h⟩
    rw [hos]
    split
    · rfl
    · exact hu
  · rw [hcreated]
    exact inv.tid
  · rw [hcreated]
    rw [hos] at hu
    split at hu
    · next heq =>
      cases hu
      exact heq ▸ (inv.thread t th hth).imp_right hmain
    · exact inv.thread t' u hu
  · rw [hcreated] at hp
    rw [(hnew p hp).1, (hnew p hp).2]
    exact inv.new p hp
  · rw [hos] at ht'
    split at ht'
    · cases ht'
    · exact (hunborn t' ht').trans (inv.unborn t' ht')
  · rw [hwait, inv.wait, hcreated]
    constructor
    · rintro ⟨⟨g, hg, hmaker, hown⟩, himp⟩
      exact ⟨g, hg, hmaker, himp hown⟩
    · rintro ⟨g, hg, hmaker, hown⟩
      exact ⟨⟨g, hg, hmaker, howned p hown⟩, fun _ => hown⟩
  · rw [hos] at hc
    split at hc
    · exact hwithin c (Option.some.inj hc)
    · have hbefore := inv.within t' c hc
      cases hafter : s'.owned c.object with
      | true => rfl
      | false => rw [howned _ hafter] at hbefore; cases hbefore

theorem Inv.run_step (inv : Inv s) (hth : s.os t = some th) (hp : th.pc.object = some p)
    (ho : s.mem p = some o) :
    Inv ((s.setMem p (some (th.runStep o).2)).setOs t (th.runStep o).1) := by
  have hbegun := RunPc.begun_of_object hp
  obtain ⟨p', g, hg, rfl, hphase⟩ := inv.in_run hth hbegun
  obtain ⟨rfl, x, hx, hnext⟩ := hphase.run_step hp
  rw [ho] at hx
  cases hx
  refine inv.change hth (th.runStep o).1 ?_ rfl ?_ ?_ ?_ (fun t' _ => rfl) ?_
    (fun c hc => absurd hc (OsThread.runStep_ne_within hp)) (fun _ h => h)
  · rw [hbegun]
    rintro ⟨-, ⟨⟩⟩
  · intro t'
    simp [Function.update_apply]
  · intro q h u hq hu hbefore
    by_cases hqp : q = p
    · subst hqp
      cases hq.symm.trans hg
      simpa using hnext
    · have htid : h.tid ≠ g.tid := fun heq => hqp (inv.tid q p h g hq hg heq)
      simpa [hqp, htid] using hbefore
  · intro q hq
    have hqp : q ≠ p := by
      rintro rfl
      rw [hg] at hq
      cases hq
    simp [hqp]
  · intro t' q
    by_cases ht : t' = g.tid
    · subst ht
      simp [hth, RunPc.ne_wait_of_object hp, OsThread.runStep_ne_wait hp]
    · simp [ht]

/-- `cb()` -/
theorem Inv.call (inv : Inv s) (hth : s.os t = some th) {cb : κ} (hpc : th.pc = .call (some cb)) :
    Inv ((s.begins t cb).setOs t { th with pc := .user }) := by
  obtain ⟨p, g, hg, rfl, hphase⟩ := inv.in_run hth (by rw [hpc]; rfl)
  refine inv.change hth { th with pc := .user } ?_ rfl ?_ ?_
    (fun _ _ => ⟨rfl, rfl⟩) ?_ ?_ (by rintro c ⟨⟩) (fun _ h => h)
  · rw [hpc]
    rintro ⟨-, ⟨⟩⟩
  · intro t'
    simp [Function.update_apply]
  · intro q h u hq hu hbefore
    by_cases hqp : q = p
    · subst hqp
      cases hq.symm.trans hg
      cases hth.symm.trans hu
      simpa using Phase.started ((hbefore.of_call hpc).called hpc)
    · have htid : h.tid ≠ g.tid := fun heq => hqp (inv.tid q p h g hq hg heq)
      simpa [htid] using hbefore
  · intro t' ht'
    have htid : t' ≠ g.tid := by
      rintro rfl
      rw [hth] at ht'
      cases ht'
    simp [htid]
  · intro t' q
    by_cases ht : t' = g.tid
    · subst ht
      simp [hth, hpc]
    · simp [ht]

/-- The constructor returns. -/
theorem Inv.wait_step (inv : Inv s) (hth : s.os t = some th) (hpc : th.pc = .wait p)
    (ho : s.mem p = some o) (hsem : o.semaphore ≠ 0) :
    Inv (((s.setMem p (some { o with semaphore := o.semaphore - 1 })).own p).setOs t
      { th with pc := .user }) := by
  have hbegun : th.pc.begun = true := by rw [hpc]; rfl
  obtain ⟨g, hg, hmaker, hown⟩ := (inv.wait t p).mp (by rw [hth]; exact congrArg some hpc)
  refine inv.change hth { th with pc := .user } (fun h => ⟨h.1, rfl⟩) rfl ?_ ?_ ?_
    (fun _ _ => rfl) ?_ (by rintro c ⟨⟩) ?_
  · intro t'
    simp [Function.update_apply]
  · intro q h u hq hu hbefore
    have hthread : h.tid = t → u = th := fun heq => Option.some.inj (hu.symm.trans (heq ▸ hth))
    by_cases hqp : q = p
    · subst hqp
      rw [ho, hown] at hbefore
      simpa using (Phase.started (hbefore.wait hsem)).goes_on hthread hbegun rfl
    · simpa [hqp] using hbefore.goes_on hthread hbegun rfl
  · intro q hq
    have hqp : q ≠ p := by
      rintro rfl
      rw [hg] at hq
      cases hq
    simp [hqp]
  · intro t' q
    by_cases hqp : q = p
    · subst hqp
      have hiff := inv.wait t' q
      by_cases ht : t' = t
      · simp [ht, hown]
      · have hnot : ¬ (s.os t').map OsThread.pc = some (.wait q) := by
          rw [hiff]
          rintro ⟨g', hg', rfl, -⟩
          cases hg'.symm.trans hg
          exact ht hmaker
        simpa [ht, hown] using hnot
    · by_cases ht : t' = t
      · simp [ht, hth, hpc, Ne.symm hqp]
      · simp [ht, hqp]
  · intro q hq
    by_cases hqp : q = p
    · subst hqp
      exact hown
    · simpa [hqp] using hq

/-- A thread whose callback has begun goes on in it. -/
theorem Inv.moves (inv : Inv s) (hth : s.os t = some th) (hbegun : th.pc.begun = true)
    (hwait : ∀ q, th.pc ≠ .wait q) {pc : RunPc κ} (hbegun' : pc.begun = true) (hwait' : ∀ q, pc ≠ .wait q)
    (hwithin : ∀ c, pc = .within c → s.owned c.object = true) : Inv (s.setOs t { th with pc := pc }) := by
  refine inv.change hth { th with pc := pc } (fun h => ⟨h.1, hbegun'⟩) rfl ?_ ?_
    (fun _ _ => ⟨rfl, rfl⟩) (fun _ _ => rfl) ?_ hwithin (fun _ h => h)
  · intro t'
    simp [Function.update_apply]
  · intro q h u hq hu hbefore
    have hthread : h.tid = t → u = th := fun heq => Option.some.inj (hu.symm.trans (heq ▸ hth))
    simpa using hbefore.goes_on hthread hbegun hbegun'
  · intro t' q
    by_cases ht : t' = t
    · simp [ht, hth, hwait, hwait']
    · simp [ht]

theorem Inv.moves_user (inv : Inv s) (hth : s.os t = some th) (hpc : th.pc = .user) {pc : RunPc κ}
    (hbegun : pc.begun = true) (hwait : ∀ q, pc ≠ .wait q)
    (hwithin : ∀ c, pc = .within c → s.owned c.object = true) : Inv (s.setOs t { th with pc := pc }) :=
  inv.moves hth (by rw [hpc]; rfl) (by rw [hpc]; rintro q ⟨⟩) hbegun hwait hwithin

/-- `set_name` of the main thread. -/
theorem Inv.names (inv : Inv s) (hth : s.os t = some th) (hpc : th.pc = .user) (hthis : th.this = none)
    (name : Str) : Inv (s.setOs t { th with threadName := name }) := by
  refine inv.change hth { th with threadName := name } (fun h => h) rfl ?_ ?_
    (fun _ _ => ⟨rfl, rfl⟩) (fun _ _ => rfl) ?_ (by rw [hpc]; rintro c ⟨⟩) (fun _ h => h)
  · intro t'
    simp [Function.update_apply]
  · intro q h u hq hu hbefore
    have htid : h.tid ≠ t := by
      intro heq
      cases (heq ▸ hu).symm.trans hth
      rw [(hbefore.of_begun (by rw [hpc]; rfl)).this] at hthis
      cases hthis
    simpa [htid] using hbefore
  · intro t' q
    by_cases ht : t' = t
    · simp [ht, hth]
    · simp [ht]

/-- `set_name` of a thread of an object. -/
theorem Inv.renames (inv : Inv s) (hth : s.os t = some th) (hpc : th.pc = .user) (hthis : th.this = some p)
    (name : Str) :
    Inv ((s.setMem p ((s.mem p).map fun o => { o with name := name })).setOs t
      { th with threadName := name }) := by
  have hbegun : th.pc.begun = true := by rw [hpc]; rfl
  obtain ⟨g, hg, rfl⟩ := inv.of_this hth hthis hbegun
  refine inv.change hth { th with threadName := name } (fun h => h) rfl ?_ ?_ ?_
    (fun _ _ => rfl) ?_ (by rw [hpc]; rintro c ⟨⟩) (fun _ h => h)
  · intro t'
    simp [Function.update_apply]
  · intro q h u hq hu hbefore
    by_cases hqp : q = p
    · subst hqp
      cases hq.symm.trans hg
      cases hth.symm.trans hu
      simpa using Phase.started ((hbefore.of_begun hbegun).set_name name)
    · have htid : h.tid ≠ g.tid := fun heq => hqp (inv.tid q p h g hq hg heq)
      simpa [hqp, htid] using hbefore
  · intro q hq
    have hqp : q ≠ p := by
      rintro rfl
      rw [hg] at hq
      cases hq
    simp [hqp]
  · intro t' q
    by_cases ht : t' = g.tid
    · simp [ht, hth]
    · simp [ht]

/-- `join` and the destructor, for an object that still is there. -/
theorem Inv.release (inv : Inv s) (hth : s.os t = some th) (ho : s.mem p = some o)
    (howned : s.owned p = true) (o' : Option (Thread κ))
    (ho' : ∀ y, o' = some y → y = { o with thread := none }) : Inv (s.setMem p o') := by
  refine inv.change hth th (fun h => h) rfl ?_ ?_ ?_ (fun _ _ => rfl) ?_ ?_ (fun _ h => h)
  · intro t'
    by_cases ht : t' = t
    · simp [ht, hth]
    · simp [ht]
  · intro q h u hq hu hbefore
    have heq : (if h.tid = t then th else u) = u := by
      split
      · next heq => exact Option.some.inj ((heq ▸ hth).symm.trans hu)
      · rfl
    rw [heq]
    by_cases hqp : q = p
    · subst hqp
      rw [ho, howned] at hbefore
      simpa [howned] using Phase.started (hbefore.of_owned.release ho')
    · simpa [hqp] using hbefore
  · intro q hq
    have hqp : q ≠ p := by
      rintro rfl
      rw [(inv.new q hq).1] at ho
      cases ho
    simp [hqp]
  · intro t' q
    simp
  · intro c hc
    exact inv.within t c (by rw [hth]; exact congrArg some hc)

/-- A thread in `join` or in the destructor goes on. -/
theorem Inv.moves_within (inv : Inv s) (hth : s.os t = some th) {c : ThreadCall} (hpc : th.pc = .within c)
    {pc : RunPc κ} (hbegun : pc.begun = true) (hwait : ∀ q, pc ≠ .wait q)
    (hwithin : ∀ c', pc = .within c' → c'.object = c.object) : Inv (s.setOs t { th with pc := pc }) := by
  refine inv.moves hth (by rw [hpc]; rfl) (by rw [hpc]; rintro q ⟨⟩) hbegun hwait fun c' hc' => ?_
  rw [hwithin c' hc']
  exact inv.within t c (by rw [hth]; exact congrArg some hpc)

/-- A constructor has made its thread. -/
theorem Inv.makes (inv : Inv s) (hth : s.os t = some th) (hpc : th.pc = .user) (g : Created κ)
    (hmaker : g.maker = t) (hp : s.created p = none) (htid : s.os g.tid = none) :
    Inv ((((s.setMem p (some (starting p g 0).2)).setOs g.tid (starting p g 0).1).makes p g).setOs t
      { th with pc := .wait p }) := by
  have hbegun : th.pc.begun = true := by rw [hpc]; rfl
  obtain ⟨hmem, hown⟩ := inv.new p hp
  have hruns := inv.unborn g.tid htid
  have hne : g.tid ≠ t := by
    rintro rfl
    rw [hth] at htid
    cases htid
  have hother : ∀ q h, s.created q = some h → q ≠ p ∧ h.tid ≠ g.tid := by
    intro q h hq
    constructor
    · rintro rfl
      rw [hp] at hq
      cases hq
    · intro heq
      obtain ⟨u, hu, -⟩ := inv.phase q h hq
      rw [heq, htid] at hu
      cases hu
  refine ⟨fun q h hq => ?_, fun q r h k hq hr heq => ?_, fun t' u hu => ?_, fun q hq => ?_,
    fun t' ht' => ?_, fun t' q => ?_, fun t' c hc => ?_⟩
  · by_cases hqp : q = p
    · subst hqp
      obtain rfl : g = h := by simpa using hq
      refine ⟨(starting q g 0).1, by simp [hne], ?_⟩
      simpa [hown, hruns] using Phase.starting (p := q) (g := g) 0 (Nat.zero_le _)
    · have hq : s.created q = some h := by simpa [hqp] using hq
      obtain ⟨u, hu, hbefore⟩ := inv.phase q h hq
      have hthread : h.tid = t → u = th := fun heq => Option.some.inj (hu.symm.trans (heq ▸ hth))
      refine ⟨if h.tid = t then { th with pc := .wait p } else u, ?_, ?_⟩
      · by_cases heq : h.tid = t
        · simp [heq]
        · simp [heq, (hother q h hq).2, hu]
      · simpa [hqp] using hbefore.goes_on hthread hbegun rfl
  · by_cases hqp : q = p
    · by_cases hrp : r = p
      · rw [hqp, hrp]
      · obtain rfl : g = h := by simpa [hqp] using hq
        have hr : s.created r = some k := by simpa [hrp] using hr
        exact absurd heq.symm (hother r k hr).2
    · have hq : s.created q = some h := by simpa [hqp] using hq
      by_cases hrp : r = p
      · obtain rfl : g = k := by simpa [hrp] using hr
        exact absurd heq (hother q h hq).2
      · exact inv.tid q r h k hq (by simpa [hrp] using hr) heq
  · by_cases hnew : t' = g.tid
    · exact Or.inl ⟨p, g, by simp, hnew.symm⟩
    · have hold : (∃ q h, s.created q = some h ∧ h.tid = t') ∨ u.this = none ∧ u.pc.begun = true := by
        by_cases ht : t' = t
        · obtain rfl : { th with pc := .wait p } = u := by simpa [ht] using hu
          exact ht ▸ (inv.thread t th hth).imp_right fun h => ⟨h.1, rfl⟩
        · exact inv.thread t' u (by simpa [ht, hnew] using hu)
      refine hold.imp_left ?_
      rintro ⟨q, h, hq, rfl⟩
      exact ⟨q, h, by simpa [(hother q h hq).1] using hq, rfl⟩
  · have hqp : q ≠ p := by
      rintro rfl
      simp at hq
    simpa [hqp] using inv.new q (by simpa [hqp] using hq)
  · have hnew : t' ≠ g.tid := by
      rintro rfl
      simp [hne] at ht'
    have ht : t' ≠ t := by
      rintro rfl
      simp at ht'
    simpa using inv.unborn t' (by simpa [ht, hnew] using ht')
  · have hiff := inv.wait t' q
    by_cases hqp : q = p
    · subst hqp
      rw [hp] at hiff
      by_cases ht : t' = t
      · simp [ht, hmaker, hown]
      · by_cases hnew : t' = g.tid
        · simp [hnew, hne, starting, hmaker, hne.symm]
        · simpa [ht, hnew, hmaker, Ne.symm ht] using hiff
    · by_cases ht : t' = t
      · rw [ht, hth] at hiff
        simpa [ht, hqp, Ne.symm hqp, hpc] using hiff
      · by_cases hnew : t' = g.tid
        · rw [hnew, htid] at hiff
          simpa [hnew, hne, hqp, starting] using hiff
        · simpa [ht, hnew, hqp] using hiff
  · by_cases ht : t' = t
    · simp [ht] at hc
    · by_cases hnew : t' = g.tid
      · simp [hnew, hne, starting] at hc
      · exact inv.within t' c (by simpa [ht, hnew] using hc)

/-- **The invariant holds through every step.** -/
theorem Inv.step (inv : Inv s) {a : ThreadAct κ} {s' : Threads κ} (h : s.step a = some s') : Inv s' := by
  cases Threads.step_cases h with
  | throws => exact inv
  | makes g hth hpc hmaker hp htid => exact inv.makes hth hpc g hmaker hp htid
  | waits hth hpc ho hsem => exact inv.wait_step hth hpc ho hsem
  | runs hth hp ho => exact inv.run_step hth hp ho
  | gone => exact inv.goesStale
  | calls hth hpc => exact inv.call hth hpc
  | returns hth hpc => exact inv.moves_user hth hpc rfl nofun nofun
  | names hth hpc hthis => exact inv.names hth hpc hthis _
  | @renames t th p o name hth hpc hthis ho =>
    have h := inv.renames hth hpc hthis name
    rwa [ho] at h
  | @late t th p name huser hthis ho =>
    obtain ⟨hth, hpc⟩ := Threads.user_eq huser
    have h := inv.goesStale.renames hth hpc hthis name
    rwa [Threads.setMem_map_none (show s.goesStale.mem p = none from ho)] at h
  | passes => exact inv
  | starts _ hth hpc ho howned hobject =>
    exact inv.moves_user hth hpc rfl nofun (by rintro _ ⟨⟩; rwa [hobject])
  | hands hth hpc _ _ hobject =>
    exact (inv.handOver _).moves_within hth hpc rfl nofun (by rintro _ ⟨⟩; exact hobject)
  | comesBack hth hpc hobject =>
    exact inv.moves_within hth hpc rfl nofun (by rintro _ ⟨⟩; exact hobject)
  | ends hth hpc _ ho ho' =>
    have howned := inv.within _ _ (by rw [hth]; exact congrArg some hpc)
    exact (inv.release hth ho howned _ ho').moves_within hth hpc rfl nofun nofun
  | clashes => exact inv.clashes

end Steps

end TinyTcp.Sync
