/-
TinyTcp.Sync.ThreadLife — what a program can rely on from the constructor of
a `Thread` to its destructor.

* The constructor returns (`constructor_returns`).
* The object may be destroyed at any time afterwards: of the thread only
  `set_name` goes to it once more (`not_stale_iff`).
* Where the callers see to that, and keep the calls of `join` and of the
  destructor of one object apart, nothing undefined is done: the id, the
  name and the callback are where they belong, and the thread is handed to
  `pthread_join` or `pthread_detach` once (`thread_started`).
-/
import TinyTcp.Sync.ThreadJoin
import TinyTcp.Lib.Run

namespace TinyTcp.Sync

open TinyTcp.Lib TinyTcp.Log

variable {κ : Type}

/-! ## Whole runs -/

theorem create_inv : Inv (.create : Threads κ) := by
  refine ⟨nofun, nofun, fun t th hth => Or.inr ?_, fun _ _ => ⟨rfl, rfl⟩, fun _ _ => rfl, fun t p => ?_,
    fun t c hc => absurd hc (create_calls t c)⟩
  · by_cases ht : t = 0
    · obtain rfl : (⟨0, none, str "UNKNOW", [], .user⟩ : OsThread κ) = th := by
        simpa [Threads.create, ht] using hth
      exact ⟨rfl, rfl⟩
    · simp [Threads.create, ht] at hth
  · by_cases ht : t = 0
    · simp [Threads.create, ht]
    · simp [Threads.create, ht]

theorem run_inv {acts : List (ThreadAct κ)} {s : Threads κ} (hrun : run Threads.step .create acts = some s) :
    Inv s := by
  have hstep : ∀ (s : Threads κ) (a : ThreadAct κ) (s' : Threads κ),
      Inv s → True → s.step a = some s' → Inv s' := fun _ _ _ inv _ h => inv.step h
  exact run_induction hstep acts _ s create_inv
    (along_of_forall (p := fun _ => True) (fun _ _ => trivial) _) hrun

/-! ## The constructor returns -/

/-- The lines of `run` up to the semaphore. -/
def RunPc.left : RunPc κ → Nat
  | start _ => 5
  | setPid _ => 4
  | setName _ => 3
  | swap _ => 2
  | notify _ _ => 1
  | _ => 0

theorem RunPc.left_le (pc : RunPc κ) : pc.left ≤ 5 := by
  cases pc <;> simp [left]

theorem OsThread.runStep_left {th : OsThread κ} {o : Thread κ} {p : ThreadPtr}
    (h : th.pc.object = some p) : (th.runStep o).1.pc.left < th.pc.left := by
  unfold runStep
  cases hpc : th.pc with
  | start q => simp [RunPc.left]
  | setPid q => simp [RunPc.left]
  | setName q => simp [RunPc.left]
  | swap q => simp [RunPc.left]
  | notify q cb => simp [RunPc.left]
  | call cb => rw [hpc] at h; cases h
  | user => rw [hpc] at h; cases h
  | wait q => rw [hpc] at h; cases h
  | within c => rw [hpc] at h; cases h
  | returned => rw [hpc] at h; cases h

theorem Threads.advance_run {s : Threads κ} {t : Tid} {th : OsThread κ} {o : Thread κ} {p : ThreadPtr}
    (hp : th.pc.object = some p) (ho : s.mem p = some o) :
    s.advance t th = some ((s.setMem p (some (th.runStep o).2)).setOs t (th.runStep o).1) := by
  unfold advance
  split
  · next hpc => rw [hpc] at hp; cases hp
  · next hpc => rw [hpc] at hp; cases hp
  · next hpc => rw [hpc] at hp; cases hp
  · next hpc => rw [hpc] at hp; cases hp
  · rw [hp]
    dsimp only
    rw [ho]

/-- **No constructor waits for ever.** In every run, whatever the others do,
the thread that a constructor has made can always go on until it posts the
semaphore, which it does within five steps, and then the constructor
returns. -/
theorem constructor_returns {acts : List (ThreadAct κ)} {s : Threads κ}
    (hrun : run Threads.step .create acts = some s) {t : Tid} {th : OsThread κ} {p : ThreadPtr}
    (hth : s.os t = some th) (hpc : th.pc = .wait p) :
    ∃ g, s.created p = some g ∧ ∃ n ≤ 5, ∃ s',
      run Threads.step s (List.replicate n (.step g.tid) ++ [.step t]) = some s' ∧
        s'.owned p = true ∧ s'.os t = some { th with pc := .user } := by
  have inv := run_inv hrun
  obtain ⟨g, hg, -, hown⟩ := (inv.wait t p).mp (by rw [hth]; exact congrArg some hpc)
  have hstep : ∀ r : Threads κ, Inv r ∧ r.created p = some g ∧ r.owned p = false ∧ r.os t = some th →
      ¬ (∃ o, r.mem p = some o ∧ o.semaphore ≠ 0) → ∃ r', r.step (.step g.tid) = some r' ∧
        (Inv r' ∧ r'.created p = some g ∧ r'.owned p = false ∧ r'.os t = some th) ∧
        (r'.os g.tid).elim 0 (·.pc.left) < (r.os g.tid).elim 0 (·.pc.left) := by
    rintro r ⟨hinv, hcreated, howned, hwaits⟩ hposted
    obtain ⟨u, hu, hphase⟩ := hinv.phase p g hcreated
    obtain ⟨o, ho⟩ := Option.isSome_iff_exists.mp (hphase.alive howned)
    rw [ho, howned] at hphase
    have hobject : u.pc.object = some p := hphase.posts.resolve_right fun hsem => hposted ⟨o, ho, hsem⟩
    have hne : t ≠ g.tid := by
      rintro rfl
      cases hwaits.symm.trans hu
      rw [hpc] at hobject
      cases hobject
    have hnext : r.step (.step g.tid) =
        some ((r.setMem p (some (u.runStep o).2)).setOs g.tid (u.runStep o).1) := by
      simp [Threads.step, hu, Threads.advance_run hobject ho]
    refine ⟨_, hnext, ⟨hinv.step hnext, hcreated, howned, ?_⟩, ?_⟩
    · simpa [hne] using hwaits
    · simpa [hu] using OsThread.runStep_left hobject
  obtain ⟨n, hn, r, hreplicate, ⟨-, -, -, hwaits⟩, o, ho, hsem⟩ :=
    exists_run_replicate (fun r : Threads κ => (r.os g.tid).elim 0 (·.pc.left)) hstep s ⟨inv, hg, hown, hth⟩
  have hfive : (s.os g.tid).elim 0 (·.pc.left) ≤ 5 := by
    cases s.os g.tid with
    | none => exact Nat.zero_le _
    | some u => exact u.pc.left_le
  have hlast : r.step (.step t) =
      some (((r.setMem p (some { o with semaphore := o.semaphore - 1 })).own p).setOs t
        { th with pc := .user }) := by
    simp [Threads.step, hwaits, Threads.advance, hpc, ho, hsem]
  have hreturns := run_append Threads.step (List.replicate n (.step g.tid)) [.step t] s
  rw [hreplicate, Option.bind_some, run_cons hlast, run_nil] at hreturns
  exact ⟨g, hg, n, hn.trans hfive, _, hreturns, by simp, by simp⟩

/-- The main thread makes the thread of a stack, which makes another one. -/
def threadOfThread : List (ThreadAct Nat) :=
  .construct 0 7 70 (str "work_thread") (some (1, 4001)) ::
    List.replicate 5 (.step 1) ++ [.step 0, .step 1, .setName 1 (str "stack"),
      .construct 1 9 90 [] (some (2, 4002))]

theorem constructor_returns_stack :
    ∃ s, run Threads.step .create threadOfThread = some s ∧
      ∃ n ≤ 5, ∃ s', run Threads.step s (List.replicate n (.step 2) ++ [.step 1]) = some s' ∧
        s'.owned 9 = true := by
  have hstate : (run Threads.step .create threadOfThread).map
      (fun s => ((s.os 1).map OsThread.pc, (s.created 9).map Created.tid)) = some (some (.wait 9), some 2) := by
    decide +kernel
  obtain ⟨s, hrun, heq⟩ := Option.map_eq_some_iff.mp hstate
  obtain ⟨hwaits, hmade⟩ := Prod.mk.inj heq
  obtain ⟨th, hth, hpc⟩ := Option.map_eq_some_iff.mp hwaits
  obtain ⟨g, hg, n, hn, s', hreturns, howned, -⟩ := constructor_returns hrun hth hpc
  have htid : g.tid = 2 := by simpa [hg] using hmade
  rw [htid] at hreturns
  exact ⟨s, hrun, n, hn, s', hreturns, howned⟩

/-! ## Objects that are gone -/

/-- `set_name` of a thread whose object is destroyed. -/
def Threads.Late (s : Threads κ) (a : ThreadAct κ) : Prop :=
  ∃ t name th p, a = .setName t name ∧ s.user t = some th ∧ th.this = some p ∧ s.mem p = none

theorem Inv.stale_step {s s' : Threads κ} (inv : Inv s) {a : ThreadAct κ} (h : s.step a = some s') :
    s'.stale = false ↔ s.stale = false ∧ ¬ s.Late a := by
  have hother : ¬ s.Late a → s'.stale = s.stale → (s'.stale = false ↔ s.stale = false ∧ ¬ s.Late a) := by
    intro hlate heq
    rw [heq]
    exact ⟨fun hs => ⟨hs, hlate⟩, And.left⟩
  cases Threads.step_cases h with
  | gone hth hp ho =>
    exfalso
    rcases hp with hpc | hp
    · -- the object of a constructor that waits is there
      obtain ⟨g, hg, -, hown⟩ := (inv.wait _ _).mp (by rw [hth]; exact congrArg some hpc)
      obtain ⟨u, -, hphase⟩ := inv.phase _ g hg
      rw [ho, hown] at hphase
      exact absurd (hphase.alive rfl) (by simp)
    · -- and so is that of a thread that is in `run`
      obtain ⟨q, g, -, rfl, hphase⟩ := inv.in_run hth (RunPc.begun_of_object hp)
      obtain ⟨rfl, x, hx, -⟩ := hphase.run_step hp
      cases ho.symm.trans hx
  | names hth hpc hthis =>
    refine hother ?_ rfl
    rintro ⟨_, _, u, p, ⟨⟩, hu, hp, -⟩
    cases hth.symm.trans (Threads.user_eq hu).1
    cases hthis.symm.trans hp
  | renames hth hpc hthis ho =>
    refine hother ?_ rfl
    rintro ⟨_, _, u, p, ⟨⟩, hu, hp, hgone⟩
    cases hth.symm.trans (Threads.user_eq hu).1
    cases hthis.symm.trans hp
    cases ho.symm.trans hgone
  | late huser hthis ho =>
    exact iff_of_false Bool.true_eq_false.mp fun hs => hs.2 ⟨_, _, _, _, rfl, huser, hthis, ho⟩
  | starts ha =>
    refine hother ?_ rfl
    rintro ⟨t, name, -, -, rfl, -⟩
    rcases ha with ha | ha
    · cases ha
    · cases ha
  | clashes ha =>
    refine hother ?_ rfl
    rintro ⟨t, name, -, -, rfl, -⟩
    rcases ha with ha | ⟨ok, ha⟩
    · cases ha
    · cases ha
  -- no other step is one of `set_name`
  | _ => exact hother (by rintro ⟨t, name, -, -, ⟨⟩, -⟩) rfl

/-- **Nothing is done with an object that is destroyed**, by whatever threads
in whatever order, exactly if no thread calls `set_name` after its object
was destroyed. -/
theorem not_stale_iff {acts : List (ThreadAct κ)} {s : Threads κ}
    (hrun : run Threads.step .create acts = some s) :
    s.stale = false ↔ Along Threads.step (fun s a => ¬ s.Late a) .create acts := by
  classical
  have hstep : ∀ (s : Threads κ) (a : ThreadAct κ) (s' : Threads κ) (n : Nat),
      Inv s ∧ (s.stale = false ↔ n = 0) → s.step a = some s' →
        ∃ k, (Inv s' ∧ (s'.stale = false ↔ n + k = 0)) ∧ (k = 0 ↔ ¬ s.Late a) := by
    rintro s a s' n ⟨inv, hn⟩ h
    refine ⟨if s.Late a then 1 else 0, ⟨inv.step h, ?_⟩, by simp⟩
    rw [inv.stale_step h, hn]
    by_cases hlate : s.Late a
    · simp [hlate]
    · simp [hlate]
  obtain ⟨k, ⟨-, hk⟩, hiff⟩ := run_count hstep acts .create s 0 ⟨create_inv, iff_of_true rfl rfl⟩ hrun
  rw [hk, Nat.zero_add]
  exact hiff

/-- The object is destroyed, and then its thread sets its name. -/
theorem not_stale_late :
    ∃ s, run Threads.step .create
        (.construct 0 7 70 (str "work_thread") (some (1, 4001)) :: List.replicate 5 (.step 1) ++
          [.step 0, .destroy 0 7, .step 0, .step 0, .step 1, .setName 1 (str "stack")]) = some s ∧
      ¬ Along Threads.step (fun s a => ¬ s.Late a) .create
        (.construct 0 7 70 (str "work_thread") (some (1, 4001)) :: List.replicate 5 (.step 1) ++
          [.step 0, .destroy 0 7, .step 0, .step 0, .step 1, .setName 1 (str "stack")]) := by
  have hstate : (run Threads.step (.create : Threads Nat)
      (.construct 0 7 70 (str "work_thread") (some (1, 4001)) :: List.replicate 5 (.step 1) ++
        [.step 0, .destroy 0 7, .step 0, .step 0, .step 1, .setName 1 (str "stack")])).map
          Threads.stale = some true := by
    decide +kernel
  obtain ⟨s, hrun, hstale⟩ := Option.map_eq_some_iff.mp hstate
  refine ⟨s, hrun, fun halong => ?_⟩
  rw [(not_stale_iff hrun).mpr halong] at hstale
  cases hstale

/-! ## A thread that was started -/

/-- What the callers have to see to: `set_name` while the object is there, and
`join` and the destructor one at a time. -/
def Threads.Orderly (s : Threads κ) (a : ThreadAct κ) : Prop := ¬ s.Late a ∧ s.Sole a

/-- Neither `set_name` nor `join` nor the destructor. -/
def ThreadAct.plain : ThreadAct κ → Bool
  | setName _ _ => false
  | join _ _ => false
  | destroy _ _ => false
  | _ => true

theorem Threads.orderly_of_plain {a : ThreadAct κ} (h : a.plain = true) (s : Threads κ) : s.Orderly a := by
  constructor
  · rintro ⟨t, name, -, -, rfl, -⟩
    cases h
  · rintro t p (rfl | rfl)
    · cases h
    · cases h

theorem run_orderly {acts : List (ThreadAct κ)} {s : Threads κ} (hrun : run Threads.step .create acts = some s)
    (horderly : Along Threads.step Threads.Orderly .create acts) : Inv s ∧ Duty s ∧ s.stale = false := by
  have hstep : ∀ (s : Threads κ) (a : ThreadAct κ) (s' : Threads κ), Inv s ∧ Duty s ∧ s.stale = false →
      s.Orderly a → s.step a = some s' → Inv s' ∧ Duty s' ∧ s'.stale = false := by
    rintro s a s' ⟨inv, hduty, hstale⟩ ⟨hlate, hsole⟩ h
    exact ⟨inv.step h, hduty.step inv hsole h, (inv.stale_step h).mpr ⟨hstale, hlate⟩⟩
  exact run_induction hstep acts _ s ⟨create_inv, create_duty, rfl⟩ horderly hrun

/-- How often the thread of an object has been handed over. -/
theorem Duty.count {s : Threads κ} (h : Duty s) {p : ThreadPtr} {g : Created κ} (hg : s.created p = some g) :
    s.handed.count g.tid ≤ 1 ∧ (s.keeps p = false → s.handed.count g.tid = 1) ∧
      (s.keeps p = true → s.Idle p → s.handed.count g.tid = 0) := by
  by_cases hidle : s.Idle p
  · have hcount : s.handed.count g.tid = if s.keeps p then 0 else 1 := h.idle p g hg hidle
    cases hkeeps : s.keeps p with
    | false => simp [hcount, hkeeps]
    | true => simp [hcount, hkeeps]
  · obtain ⟨t, c, hc, hobject⟩ : ∃ t c, s.Calls t c ∧ c.object = p := by
      unfold Threads.Idle at hidle
      push Not at hidle
      exact hidle
    obtain ⟨-, hkeeps, hcount⟩ := h.call t c g hc (by rw [hobject]; exact hg)
    rw [hobject] at hkeeps
    refine ⟨?_, fun hnone => ?_, fun _ hidle' => absurd hidle' hidle⟩
    · rw [hcount]
      split
      · exact Nat.le_refl 1
      · exact Nat.zero_le 1
    · cases hpast : c.past with
      | false => rw [hkeeps hpast] at hnone; cases hnone
      | true => rw [hcount, hpast, if_pos rfl]

/-- **A thread that was started.** When no thread calls `set_name` after its
object was destroyed, and no two calls of `join` and of the destructor
overlap on an object, nothing undefined is done. Then, when a constructor has
returned, the thread it made, which is that of no other object, has the
object for `t_thread` and, for the system, the first 15 characters of the
name it was given, and begins the callback once at most. As long as the object is there, it has the id of
the thread and the name that the thread has for itself, and the callback no
more. The thread is handed over once when the object has lost it or is gone,
and never before a call is at it. -/
theorem thread_started {acts : List (ThreadAct κ)} {s : Threads κ}
    (hrun : run Threads.step .create acts = some s)
    (horderly : Along Threads.step Threads.Orderly .create acts) :
    s.stale = false ∧ s.clash = false ∧ ∀ p, s.owned p = true →
      ∃ g th, s.created p = some g ∧ s.os g.tid = some th ∧ th.pid = g.pid ∧ th.this = some p ∧
        th.osName = g.name.take 15 ∧ (∀ q h, s.created q = some h → h.tid = g.tid → q = p) ∧
        (s.runs g.tid = [g.cb] ∨ s.runs g.tid = [] ∧ th.pc = .call (some g.cb)) ∧
        (∀ o, s.mem p = some o → o.pid = some g.pid ∧ o.cb = none ∧ o.name = th.threadName) ∧
        s.handed.count g.tid ≤ 1 ∧ (s.keeps p = false → s.handed.count g.tid = 1) ∧
        (s.keeps p = true → s.Idle p → s.handed.count g.tid = 0) := by
  obtain ⟨inv, hduty, hstale⟩ := run_orderly hrun horderly
  refine ⟨hstale, hduty.clash, fun p howned => ?_⟩
  obtain ⟨g, hg⟩ := inv.created_of_owned howned
  obtain ⟨th, hth, hphase⟩ := inv.phase p g hg
  rw [howned] at hphase
  have h := hphase.of_owned
  refine ⟨g, th, hg, hth, h.pid, h.this, h.osName, fun q k hk heq => inv.tid q p k g hk hg heq, ?_,
    fun o ho => ?_, hduty.count hg⟩
  · rcases h.pc with hpc | hpc
    · exact Or.inr ⟨by simp [h.runs, hpc, RunPc.begun], hpc⟩
    · exact Or.inl (by simp [h.runs, hpc])
  · obtain ⟨hpid, hcb, hname, -⟩ := h.obj o ho
    exact ⟨hpid, hcb, hname⟩

/-- The threads an act is about. -/
def ThreadAct.tids : ThreadAct κ → List Tid
  | construct t _ _ _ made => t :: (made.map Prod.fst).toList
  | step t => [t]
  | setName t _ => [t]
  | join t _ => [t]
  | joined t _ => [t]
  | destroy t _ => [t]
  | ret t => [t]

/-- A step leaves the other threads as they are. -/
theorem Threads.os_of_step {s s' : Threads κ} {a : ThreadAct κ} {t : Tid} (ht : t ∉ a.tids)
    (h : s.step a = some s') : s'.os t = s.os t := by
  have hself : ∀ {t' : Tid}, t ∉ [t'] → t ≠ t' := fun h heq => h (List.mem_singleton.mpr heq)
  cases step_cases h with
  | throws => rfl
  | @makes t' th p cb name g =>
    have hne : t ≠ t' ∧ t ≠ g.tid := by simpa [ThreadAct.tids] using ht
    simp [hne.1, hne.2]
  | waits => simp [hself ht]
  | runs => simp [hself ht]
  | gone => rfl
  | calls => simp [hself ht]
  | returns => simp [hself ht]
  | names => simp [hself ht]
  | renames => simp [hself ht]
  | late => simp [hself ht]
  | passes => rfl
  | starts ha =>
    rcases ha with rfl | rfl
    · simp [hself ht]
    · simp [hself ht]
  | hands => simp [hself ht]
  | comesBack => simp [hself ht]
  | ends => simp [hself ht]
  | clashes => rfl

theorem run_os {t : Tid} {acts : List (ThreadAct κ)} {s s' : Threads κ} (hacts : ∀ a ∈ acts, t ∉ a.tids)
    (hrun : run Threads.step s acts = some s') : s'.os t = s.os t := by
  have hstep : ∀ (r : Threads κ) (a : ThreadAct κ) (r' : Threads κ), r.os t = s.os t → t ∉ a.tids →
      r.step a = some r' → r'.os t = s.os t := fun _ _ _ hr ha h => (Threads.os_of_step ha h).trans hr
  exact run_induction hstep acts s s' rfl (along_of_forall hacts s) hrun

/-- The main thread makes another one, which comes to its end, and joins it. -/
def startedThread : List (ThreadAct Nat) :=
  .construct 0 7 70 (str "work_thread") (some (1, 4001)) :: List.replicate 5 (.step 1) ++
    [.step 0, .step 1, .ret 1]

def joinThread : List (ThreadAct Nat) := [.join 0 7, .step 0, .joined 0 true, .step 0]

theorem thread_started_joined :
    ∃ s, run Threads.step .create (startedThread ++ joinThread) = some s ∧ s.stale = false ∧
      s.clash = false ∧ s.runs 1 = [70] ∧ s.handed.count 1 = 1 ∧
        ∀ o, s.mem 7 = some o → o.pid = some 4001 ∧ o.cb = none := by
  -- nobody is in a call when the object is joined
  have hidle : ∀ s, run Threads.step .create startedThread = some s → s.Idle 7 := by
    intro s hrun t c hc
    have hpcs : (run Threads.step .create startedThread).map
        (fun s => ((s.os 0).map OsThread.pc, (s.os 1).map OsThread.pc)) = some (some .user, some .returned) := by
      decide +kernel
    rw [hrun, Option.map_some] at hpcs
    obtain ⟨hmain, hother⟩ := Prod.mk.inj (Option.some.inj hpcs)
    unfold Threads.Calls at hc
    by_cases ht : t = 0 ∨ t = 1
    · rcases ht with rfl | rfl
      · rw [hmain] at hc
        cases hc
      · rw [hother] at hc
        cases hc
    · obtain ⟨h0, h1⟩ := not_or.mp ht
      rw [run_os (s := .create) (by simp [startedThread, ThreadAct.tids, h0, h1]) hrun] at hc
      exact absurd hc (create_calls t c)
  have hplain : ∀ acts : List (ThreadAct Nat), (∀ a ∈ acts, a.plain = true) →
      ∀ s, Along Threads.step Threads.Orderly s acts := fun acts h s =>
    (along_of_forall h s).mono fun r _ ha => Threads.orderly_of_plain ha r
  have horderly : Along Threads.step Threads.Orderly .create (startedThread ++ joinThread) := by
    refine along_append (hplain startedThread (by decide) _) fun s hrun => ⟨⟨?_, ?_⟩, ?_⟩
    · rintro ⟨t, name, -, -, ⟨⟩, -⟩
    · rintro t p (⟨⟨⟩⟩ | ⟨⟨⟩⟩)
      exact hidle s hrun
    · split
      · exact hplain _ (by decide) _
      · trivial
  have hstate : (run Threads.step .create (startedThread ++ joinThread)).map
      (fun s => (s.owned 7, s.keeps 7, s.created 7, (s.os 1).map OsThread.pc)) =
        some (true, false, some ⟨0, 1, 4001, 70, str "work_thread"⟩, some .returned) := by
    decide +kernel
  obtain ⟨s, hrun, heq⟩ := Option.map_eq_some_iff.mp hstate
  simp only [Prod.mk.injEq] at heq
  obtain ⟨howned, hkeeps, hcreated, hpc⟩ := heq
  obtain ⟨hstale, hclash, h⟩ := thread_started hrun horderly
  obtain ⟨g, th, hg, hth, -, -, -, -, hruns, hobj, -, hcount, -⟩ := h 7 howned
  cases hcreated.symm.trans hg
  refine ⟨s, hrun, hstale, hclash, ?_, hcount hkeeps, fun o ho => ⟨(hobj o ho).1, (hobj o ho).2.1⟩⟩
  rcases hruns with hruns | ⟨-, hcall⟩
  · exact hruns
  · rw [hth, Option.map_some, hcall] at hpc
    cases hpc

/-- Two threads join one object at a time, and both find its thread there. -/
example : (run Threads.step (.create : Threads Nat)
    (startedThread ++ (.construct 0 8 80 (str "timer") (some (2, 4002)) :: List.replicate 5 (.step 2)) ++
      [.step 0, .step 2, .join 0 7, .join 2 7, .step 0, .step 2])).map Threads.clash = some true := by
  decide +kernel

end TinyTcp.Sync
