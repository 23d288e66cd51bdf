/-
TinyTcp.Sync.ThreadJoin — who hands a thread to `pthread_join` or to
`pthread_detach`.

`join` and the destructor test `m_thread`, hand it over and are through with
the object some accesses later. Two of them on one object may both find the
thread and hand it over twice, and one may go to an object that the other
has destroyed. A program has to see to it that no two of them overlap on an
object (`Sole`). If it does, they never get in each other's way, and a
thread is handed over once: when its object has lost it or is gone, and not
before one of them is at it (`Duty`).
-/
import TinyTcp.Sync.ThreadInvariant

namespace TinyTcp.Sync

variable {κ : Type}

/-- The call a thread is in. -/
def RunPc.call? : RunPc κ → Option ThreadCall
  | within c => some c
  | _ => none

theorem RunPc.call?_eq_some {pc : RunPc κ} {c : ThreadCall} : pc.call? = some c ↔ pc = .within c := by
  cases pc <;> simp [call?]

namespace Threads

variable (s : Threads κ)

/-- The thread is in `join` or in the destructor. -/
def Calls (t : Tid) (c : ThreadCall) : Prop := (s.os t).map OsThread.pc = some (.within c)

/-- Nobody is in `join` or in the destructor of the object. -/
def Idle (p : ThreadPtr) : Prop := ∀ t c, s.Calls t c → c.object ≠ p

/-- The object is there and has its thread. -/
def keeps (p : ThreadPtr) : Bool := ((s.mem p).bind Thread.thread).isSome

/-- `join` and the destructor of an object are called when nobody is in one of them. -/
def Sole (a : ThreadAct κ) : Prop := ∀ t p, a = .join t p ∨ a = .destroy t p → s.Idle p

/-- How often the thread of an object has been handed over, by the call that is
on the object. -/
def Accounts (p : ThreadPtr) (g : Created κ) : Option ThreadCall → Prop
  | none => s.handed.count g.tid = if s.keeps p then 0 else 1
  | some c => (s.mem p).isSome = true ∧ (c.past = false → s.keeps p = true) ∧
      s.handed.count g.tid = if c.past then 1 else 0

end Threads

structure Duty (s : Threads κ) : Prop where
  clash : s.clash = false
  one : ∀ t t' c c', s.Calls t c → s.Calls t' c' → c.object = c'.object → t = t'
  unborn : ∀ t, s.os t = none → t ∉ s.handed
  idle : ∀ p g, s.created p = some g → s.Idle p → s.Accounts p g none
  call : ∀ t c g, s.Calls t c → s.created c.object = some g → s.Accounts c.object g (some c)

/-! ## Steps that are none of a call -/

variable {s s' : Threads κ} {t : Tid} {th : OsThread κ} {p : ThreadPtr} {o : Thread κ}

theorem Threads.Accounts.congr {g : Created κ} {c : Option ThreadCall} (h : s.Accounts p g c)
    (hmem : (s'.mem p).map Thread.thread = (s.mem p).map Thread.thread)
    (hhanded : s'.handed.count g.tid = s.handed.count g.tid) : s'.Accounts p g c := by
  have hsome : (s'.mem p).isSome = (s.mem p).isSome := by
    rw [← Option.isSome_map (f := Thread.thread), hmem, Option.isSome_map]
  have hjoin : ∀ o : Option (Thread κ), o.bind Thread.thread = (o.map Thread.thread).join := by
    rintro (_ | o) <;> rfl
  have hkeeps : s'.keeps p = s.keeps p := by
    unfold keeps
    rw [hjoin, hmem, hjoin]
  cases c with
  | none =>
    unfold Accounts at h ⊢
    rw [hhanded, hkeeps]
    exact h
  | some c =>
    unfold Accounts at h ⊢
    rw [hsome, hhanded, hkeeps]
    exact h

/-- Nothing changes for the calls, the threads of the objects and what is handed over. -/
theorem Duty.same (h : Duty s) (hcreated : s'.created = s.created) (hhanded : s'.handed = s.handed)
    (hclash : s'.clash = s.clash) (hcalls : ∀ t c, s'.Calls t c ↔ s.Calls t c)
    (hmem : ∀ p, (s'.mem p).map Thread.thread = (s.mem p).map Thread.thread)
    (hborn : ∀ t, s'.os t = none → s.os t = none) : Duty s' := by
  refine ⟨hclash.trans h.clash, fun t t' c c' hc hc' => ?_, fun t ht => ?_, fun p g hg hidle => ?_,
    fun t c g hc hg => ?_⟩
  · exact h.one t t' c c' ((hcalls t c).mp hc) ((hcalls t' c').mp hc')
  · rw [hhanded]
    exact h.unborn t (hborn t ht)
  · rw [hcreated] at hg
    exact (h.idle p g hg fun t c hc => hidle t c ((hcalls t c).mpr hc)).congr (hmem p) (by rw [hhanded])
  · rw [hcreated] at hg
    exact (h.call t c g ((hcalls t c).mp hc) hg).congr (hmem _) (by rw [hhanded])

theorem calls_setOs {s₁ : Threads κ} (hos : s₁.os = s.os) {th' : OsThread κ} (t' : Tid) (c : ThreadCall) :
    (s₁.setOs t th').Calls t' c ↔ if t' = t then th'.pc = .within c else s.Calls t' c := by
  unfold Threads.Calls
  by_cases ht : t' = t
  · simp [ht]
  · simp [ht, hos]

/-- A thread that is in no call goes on, and is in none. -/
theorem calls_setOs_same {s₁ : Threads κ} (hos : s₁.os = s.os) {th' : OsThread κ} (hth : s.os t = some th)
    (hpc : ∀ c, th.pc ≠ .within c) (hpc' : ∀ c, th'.pc ≠ .within c) (t' : Tid) (c : ThreadCall) :
    (s₁.setOs t th').Calls t' c ↔ s.Calls t' c := by
  rw [calls_setOs hos]
  split
  · next ht =>
    refine iff_of_false (hpc' c) fun hc => hpc c ?_
    unfold Threads.Calls at hc
    rw [ht, hth] at hc
    exact Option.some.inj hc
  · rfl

theorem setOs_born {s₁ : Threads κ} (hos : s₁.os = s.os) {th' : OsThread κ} {t' : Tid}
    (h : (s₁.setOs t th').os t' = none) : s.os t' = none := by
  by_cases ht : t' = t
  · simp [ht] at h
  · simpa [ht, hos] using h

theorem setMem_thread {x : Thread κ} (ho : s.mem p = some o) (hthread : x.thread = o.thread) (q : ThreadPtr) :
    ((s.setMem p (some x)).mem q).map Thread.thread = (s.mem q).map Thread.thread := by
  by_cases hq : q = p
  · subst hq
    simp [ho, hthread]
  · simp [hq]

/-! ## Steps of a call -/

/-- What a step of a thread has to keep that is in `join` or in the destructor
of the object before or after it, where nobody else is. -/
theorem Duty.on (h : Duty s) (inv : Inv s) (s₁ : Threads κ) (hos : s₁.os = s.os)
    (hcreated : s₁.created = s.created) (hclash : s₁.clash = false) (th' : OsThread κ)
    (hself : ∀ c, s.Calls t c → c.object = p) (hnext : ∀ c, th'.pc = .within c → c.object = p)
    (hothers : ∀ t' c, t' ≠ t → s.Calls t' c → c.object ≠ p)
    (hmem : ∀ q, q ≠ p → s₁.mem q = s.mem q) {g : Created κ} (hg : s.created p = some g)
    (hhanded : ∀ tid, tid ≠ g.tid → s₁.handed.count tid = s.handed.count tid)
    (hafter : s₁.Accounts p g th'.pc.call?) : Duty (s₁.setOs t th') := by
  have hother : ∀ q k, q ≠ p → s.created q = some k → s₁.handed.count k.tid = s.handed.count k.tid :=
    fun q k hq hk => hhanded k.tid fun heq => hq (inv.tid q p k g hk hg heq)
  refine ⟨hclash, fun t₁ t₂ c₁ c₂ h₁ h₂ heq => ?_, fun t' ht' => ?_, fun q k hk hidle => ?_,
    fun t' c k hc hk => ?_⟩
  · rw [calls_setOs hos] at h₁ h₂
    split at h₁ <;> split at h₂
    · next ht₁ ht₂ => rw [ht₁, ht₂]
    · next ht₁ ht₂ => exact absurd (heq.symm.trans (hnext c₁ h₁)) (hothers t₂ c₂ ht₂ h₂)
    · next ht₁ ht₂ => exact absurd (heq.trans (hnext c₂ h₂)) (hothers t₁ c₁ ht₁ h₁)
    · exact h.one t₁ t₂ c₁ c₂ h₁ h₂ heq
  · have hold := setOs_born hos ht'
    have hne : t' ≠ g.tid := by
      rintro rfl
      obtain ⟨u, hu, -⟩ := inv.phase p g hg
      rw [hold] at hu
      cases hu
    refine List.count_eq_zero.mp ?_
    rw [Threads.setOs_handed, hhanded t' hne]
    exact List.count_eq_zero.mpr (h.unborn t' hold)
  · rw [Threads.setOs_created, hcreated] at hk
    by_cases hq : q = p
    · subst hq
      cases hk.symm.trans hg
      cases hcall : th'.pc.call? with
      | none => exact hcall ▸ hafter
      | some c =>
        have hpc := RunPc.call?_eq_some.mp hcall
        exact absurd (hnext c hpc) (hidle t c (by rw [calls_setOs hos, if_pos rfl]; exact hpc))
    · refine (h.idle q k hk fun t' c hc => ?_).congr (by rw [Threads.setOs_mem, hmem q hq]) (hother q k hq hk)
      by_cases ht : t' = t
      · rw [hself c (ht ▸ hc)]
        exact Ne.symm hq
      · exact hidle t' c (by rw [calls_setOs hos, if_neg ht]; exact hc)
  · rw [Threads.setOs_created, hcreated] at hk
    rw [calls_setOs hos] at hc
    split at hc
    · rw [hnext c hc] at hk ⊢
      cases hk.symm.trans hg
      rw [RunPc.call?_eq_some.mpr hc] at hafter
      exact hafter
    · next ht =>
      have hq := hothers t' c ht hc
      exact (h.call t' c k hc hk).congr (by rw [Threads.setOs_mem, hmem _ hq]) (hother _ k hq hk)

/-- The thread is the only one on the object of its call. -/
theorem Duty.alone (h : Duty s) {c : ThreadCall} (hc : s.Calls t c) (t' : Tid) (c' : ThreadCall) (ht : t' ≠ t)
    (hc' : s.Calls t' c') : c'.object ≠ c.object :=
  fun heq => ht (h.one t' t c' c hc' hc heq)

theorem calls_self (hth : s.os t = some th) {c : ThreadCall} (hpc : th.pc = .within c) : s.Calls t c := by
  unfold Threads.Calls
  rw [hth, Option.map_some, hpc]

theorem calls_unique (hth : s.os t = some th) {c c' : ThreadCall} (hpc : th.pc = .within c)
    (hc' : s.Calls t c') : c' = c := by
  unfold Threads.Calls at hc'
  rw [hth, Option.map_some, hpc] at hc'
  cases hc'
  rfl

theorem Inv.created_of_owned (inv : Inv s) (howned : s.owned p = true) : ∃ g, s.created p = some g := by
  cases hnew : s.created p with
  | none => rw [(inv.new p hnew).2] at howned; cases howned
  | some g => exact ⟨g, rfl⟩

/-- A thread that an object has is the one it was made with. -/
theorem Inv.thread_eq (inv : Inv s) {g : Created κ} (hg : s.created p = some g) (howned : s.owned p = true)
    {tid : Tid} (htid : (s.mem p).bind Thread.thread = some tid) : tid = g.tid := by
  obtain ⟨u, -, hphase⟩ := inv.phase p g hg
  rw [howned] at hphase
  obtain ⟨x, hx, hthread⟩ := Option.bind_eq_some_iff.mp htid
  rcases hphase.of_owned.thread x hx with hnone | hsome
  · rw [hthread] at hnone
    cases hnone
  · exact Option.some.inj (hthread.symm.trans hsome)

/-- `join` or the destructor begins, with nobody else in one of them. -/
theorem Duty.begins (h : Duty s) (inv : Inv s) (hth : s.os t = some th) (hpc : th.pc = .user)
    (ho : s.mem p = some o) (howned : s.owned p = true) (hidle : s.Idle p) {c : ThreadCall}
    (hobject : c.object = p) (hpast : c.past = ! o.thread.isSome) :
    Duty (s.setOs t { th with pc := .within c }) := by
  obtain ⟨g, hg⟩ := inv.created_of_owned howned
  have hself : ∀ c', s.Calls t c' → c'.object = p := by
    intro c' hc'
    unfold Threads.Calls at hc'
    rw [hth, Option.map_some, hpc] at hc'
    cases hc'
  refine h.on inv s rfl rfl h.clash { th with pc := .within c } hself (by rintro _ ⟨⟩; exact hobject)
    (fun t' c' _ hc' => hidle t' c' hc') (fun _ _ => rfl) hg (fun _ _ => rfl) ?_
  have hcount : s.handed.count g.tid = if s.keeps p then 0 else 1 := h.idle p g hg hidle
  have hkeeps : s.keeps p = o.thread.isSome := by simp [Threads.keeps, ho]
  rw [hkeeps] at hcount
  refine ⟨by rw [ho]; rfl, fun hnot => ?_, ?_⟩
  · rw [hpast] at hnot
    rw [hkeeps]
    simpa using hnot
  · rw [hpast, hcount]
    cases o.thread.isSome <;> rfl

/-- A call goes on to another line, and hands nothing over. -/
theorem Duty.goes_on (h : Duty s) (inv : Inv s) (hth : s.os t = some th) {c c' : ThreadCall}
    (hpc : th.pc = .within c) (hobject : c'.object = c.object) (hpast : c'.past = c.past) :
    Duty (s.setOs t { th with pc := .within c' }) := by
  have hc := calls_self hth hpc
  obtain ⟨g, hg⟩ := inv.created_of_owned (inv.within t c hc)
  refine h.on inv s rfl rfl h.clash { th with pc := .within c' }
    (fun d hd => by rw [calls_unique hth hpc hd]) (by rintro _ ⟨⟩; exact hobject)
    (fun t' d ht hd => h.alone hc t' d ht hd) (fun _ _ => rfl) hg (fun _ _ => rfl) ?_
  have hcall := h.call t c g hc hg
  unfold Threads.Accounts at hcall ⊢
  simpa [RunPc.call?, hpast] using hcall

/-- A call hands the thread over. -/
theorem Duty.hands (h : Duty s) (inv : Inv s) (hth : s.os t = some th) {c : ThreadCall}
    (hpc : th.pc = .within c) (hpast : c.past = false) :
    ∃ tid, (s.mem c.object).bind Thread.thread = some tid ∧
      ∀ c' : ThreadCall, c'.object = c.object → c'.past = true →
        Duty ((s.handOver tid).setOs t { th with pc := .within c' }) := by
  have hc := calls_self hth hpc
  have howned := inv.within t c hc
  obtain ⟨g, hg⟩ := inv.created_of_owned howned
  obtain ⟨hsome, hkeeps, hcount⟩ := h.call t c g hc hg
  obtain ⟨tid, htid⟩ := Option.isSome_iff_exists.mp (hkeeps hpast)
  obtain rfl := inv.thread_eq hg howned htid
  rw [hpast, if_neg Bool.false_ne_true] at hcount
  refine ⟨g.tid, htid, fun c' hobject hpast' => ?_⟩
  have hnew : g.tid ∉ s.handed := List.count_eq_zero.mp hcount
  refine h.on inv (s.handOver g.tid) rfl rfl (by simp [h.clash, hnew]) { th with pc := .within c' }
    (fun d hd => by rw [calls_unique hth hpc hd]) (by rintro _ ⟨⟩; exact hobject)
    (fun t' d ht hd => h.alone hc t' d ht hd) (fun _ _ => rfl) hg (fun tid htid => ?_)
    ⟨hsome, fun hnot => ?_, ?_⟩
  · simp [List.count_append, Ne.symm htid]
  · rw [hpast'] at hnot
    cases hnot
  · simp [List.count_append, hcount, hpast']

/-- A call ends, and the object has no thread any more. -/
theorem Duty.ends (h : Duty s) (inv : Inv s) (hth : s.os t = some th) {c : ThreadCall}
    (hpc : th.pc = .within c) (hpast : c.past = true) {o' : Option (Thread κ)}
    (ho' : o'.bind Thread.thread = none) :
    Duty ((s.setMem c.object o').setOs t { th with pc := .user }) := by
  have hc := calls_self hth hpc
  obtain ⟨g, hg⟩ := inv.created_of_owned (inv.within t c hc)
  obtain ⟨-, -, hcount⟩ := h.call t c g hc hg
  refine h.on inv (s.setMem c.object o') rfl rfl h.clash { th with pc := .user }
    (fun d hd => by rw [calls_unique hth hpc hd]) (by rintro _ ⟨⟩)
    (fun t' d ht hd => h.alone hc t' d ht hd) (fun q hq => by simp [hq]) hg (fun _ _ => rfl) ?_
  rw [hpast, if_pos rfl] at hcount
  show _ = _
  simp [Threads.keeps, ho', hcount]

/-! ## Steps of the program -/

/-- A constructor has made its thread. -/
theorem Duty.makes (h : Duty s) (inv : Inv s) (hth : s.os t = some th) (hpc : th.pc = .user) (g : Created κ)
    (hp : s.created p = none) (htid : s.os g.tid = none) :
    Duty ((((s.setMem p (some (starting p g 0).2)).setOs g.tid (starting p g 0).1).makes p g).setOs t
      { th with pc := .wait p }) := by
  have hne : g.tid ≠ t := by
    rintro rfl
    rw [hth] at htid
    cases htid
  have hcalls : ∀ t' c,
      ((((s.setMem p (some (starting p g 0).2)).setOs g.tid (starting p g 0).1).makes p g).setOs t
        { th with pc := .wait p }).Calls t' c ↔ s.Calls t' c := by
    intro t' c
    unfold Threads.Calls
    by_cases ht : t' = t
    · simp [ht, hth, hpc]
    · by_cases hnew : t' = g.tid
      · simp [hnew, hne, htid, starting]
      · simp [ht, hnew]
  refine ⟨h.clash, fun t₁ t₂ c₁ c₂ h₁ h₂ => ?_, fun t' ht' => ?_, fun q k hk hidle => ?_, fun t' c k hc hk => ?_⟩
  · exact h.one t₁ t₂ c₁ c₂ ((hcalls t₁ c₁).mp h₁) ((hcalls t₂ c₂).mp h₂)
  · have ht : t' ≠ t := by
      rintro rfl
      simp at ht'
    have hnew : t' ≠ g.tid := by
      rintro rfl
      simp [hne] at ht'
    exact h.unborn t' (by simpa [ht, hnew] using ht')
  · by_cases hq : q = p
    · subst hq
      obtain rfl : g = k := by simpa using hk
      have hcount : s.handed.count g.tid = 0 := List.count_eq_zero.mpr (h.unborn g.tid htid)
      show _ = _
      simp [Threads.keeps, starting, hcount]
    · refine (h.idle q k (by simpa [hq] using hk) fun t' c hc => hidle t' c ((hcalls t' c).mpr hc)).congr ?_ rfl
      simp [hq]
  · have hold := (hcalls t' c).mp hc
    have hq : c.object ≠ p := by
      intro heq
      have howned := inv.within t' c hold
      rw [heq, (inv.new p hp).2] at howned
      cases howned
    refine (h.call t' c k hold (by simpa [hq] using hk)).congr ?_ rfl
    simp [hq]

/-- A thread that is in no call goes on. -/
theorem Duty.stays (h : Duty s) (s₁ : Threads κ) (hth : s.os t = some th) {th' : OsThread κ}
    (hpc : ∀ c, th.pc ≠ .within c) (hpc' : ∀ c, th'.pc ≠ .within c) (hos : s₁.os = s.os)
    (hcreated : s₁.created = s.created) (hhanded : s₁.handed = s.handed) (hclash : s₁.clash = s.clash)
    (hmem : ∀ q, (s₁.mem q).map Thread.thread = (s.mem q).map Thread.thread) : Duty (s₁.setOs t th') :=
  h.same hcreated hhanded hclash (calls_setOs_same hos hth hpc hpc') hmem fun _ => setOs_born hos

/-- **The duties are kept through every step of a program that sees to it.** -/
theorem Duty.step (h : Duty s) (inv : Inv s) {a : ThreadAct κ} (hsole : s.Sole a)
    (hstep : s.step a = some s') : Duty s' := by
  have huser : ∀ {th : OsThread κ}, th.pc = .user → ∀ c, th.pc ≠ .within c := by
    rintro th hpc c
    rw [hpc]
    rintro ⟨⟩
  cases Threads.step_cases hstep with
  | throws => exact h
  | makes g hth hpc hmaker hp htid => exact h.makes inv hth hpc g hp htid
  | @waits t th p o hth hpc ho hsem =>
    exact h.stays ((s.setMem p _).own p) hth (by rw [hpc]; rintro c ⟨⟩) (by rintro c ⟨⟩) rfl rfl rfl rfl
      (setMem_thread ho rfl)
  | @runs t th p o hth hp ho =>
    exact h.stays (s.setMem p _) hth (fun c => RunPc.ne_within_of_object hp)
      (fun c => OsThread.runStep_ne_within hp) rfl rfl rfl rfl (setMem_thread ho (OsThread.runStep_thread th o))
  | gone => exact ⟨h.clash, h.one, h.unborn, h.idle, h.call⟩
  | @calls t th cb hth hpc =>
    exact h.stays (s.begins t cb) hth (by rw [hpc]; rintro c ⟨⟩) (by rintro c ⟨⟩) rfl rfl rfl rfl fun _ => rfl
  | returns hth hpc => exact h.stays s hth (huser hpc) (by rintro c ⟨⟩) rfl rfl rfl rfl fun _ => rfl
  | names hth hpc => exact h.stays s hth (huser hpc) (huser hpc) rfl rfl rfl rfl fun _ => rfl
  | @renames t th p o name hth hpc hthis ho =>
    exact h.stays (s.setMem p _) hth (huser hpc) (huser hpc) rfl rfl rfl rfl (setMem_thread ho rfl)
  | late hname =>
    obtain ⟨hth, hpc⟩ := Threads.user_eq hname
    exact h.stays s.goesStale hth (huser hpc) (huser hpc) rfl rfl rfl rfl fun _ => rfl
  | passes => exact h
  | starts ha hth hpc ho howned hobject hpast =>
    exact h.begins inv hth hpc ho howned (hsole _ _ ha) hobject hpast
  | hands hth hpc hpast htid hobject hpast' =>
    obtain ⟨tid, htid', hduty⟩ := h.hands inv hth hpc hpast
    cases htid.symm.trans htid'
    exact hduty _ hobject hpast'
  | comesBack hth hpc hobject hpast => exact h.goes_on inv hth hpc hobject hpast
  | ends hth hpc hpast ho ho' =>
    refine h.ends inv hth hpc hpast (Option.bind_eq_none_iff.mpr fun y hy => ?_)
    rw [ho' y hy]
  | clashes _ hth hpc hgone =>
    -- the object of a call is there, and has its thread until that is handed over
    have hc := calls_self hth hpc
    obtain ⟨g, hg⟩ := inv.created_of_owned (inv.within _ _ hc)
    obtain ⟨hsome, hkeeps, -⟩ := h.call _ _ g hc hg
    split at hgone
    · rw [hgone] at hsome
      cases hsome
    · next hnot =>
      unfold Threads.keeps at hkeeps
      rw [hgone] at hkeeps
      cases hkeeps (by simpa using hnot)

theorem create_calls (t : Tid) (c : ThreadCall) : ¬ (Threads.create : Threads κ).Calls t c := by
  unfold Threads.Calls
  by_cases ht : t = 0
  · simp [Threads.create, ht]
  · simp [Threads.create, ht]

theorem create_duty : Duty (.create : Threads κ) :=
  ⟨rfl, fun t _ c _ hc => absurd hc (create_calls t c), fun _ _ => List.not_mem_nil, nofun, nofun⟩

end TinyTcp.Sync
