/-
TinyTcp.Sync.Thread — the start, the join and the end of a `Thread`
(`src/thread.cc`), for any number of them on any number of threads.

The constructor makes a thread and waits for the semaphore, which `run`
posts when it has set what belongs to the thread and has taken the callback
out of the object. After that `run` leaves the object alone, so that it may
be destroyed while the thread goes on; only `set_name` still goes through
the pointer that the thread keeps.

`Threads` are the objects, the threads and what has been done with them.
One step is one access to an object, with what the thread does on its own
up to the next one. `join` and the destructor read `m_thread` twice, once to
test it and once to hand it to the system, and write it or give up the
object later: others may go to the object in between (`ThreadCall`). Both are
called by threads that own the object, which nobody does before the
constructor has returned.

Objects and threads are told apart by labels that are used once: a
`ThreadPtr` is an object and not its address, a `Tid` a thread and not its
id, and the system may use both again. `m_thread` has the label of the
thread, as a `pthread_t` is that thread until it is handed over. To hand a
thread over again, or a null one, is undefined, and so is access to an
object that is gone; a run goes on, but marks it (`clash`, `stale`).

`step_cases` says once what a step can do; what holds in all runs is proved
from its cases (`Threads.Step`).
-/
import TinyTcp.Log.Formatter
import Mathlib.Logic.Function.Basic
import Mathlib.Tactic.Simps.Basic

namespace TinyTcp.Sync

open TinyTcp.Log

/-! ## The object and the thread -/

abbrev ThreadPtr := Nat

/-- A thread of the operating system. -/
abbrev Tid := Nat

/-- What `get_thread_id` gives. -/
abbrev Pid := Nat

structure Thread (κ : Type) where
  /-- `none` is -1. -/
  pid : Option Pid
  /-- `none` is 0. -/
  thread : Option Tid
  cb : Option κ
  name : Str
  semaphore : Nat
  deriving DecidableEq, Repr

/-- Where a thread is in `join` (before it reads `m_thread` again, in
`pthread_join`, before it clears `m_thread`) or in the destructor (before it
reads `m_thread` again, before the members go). -/
inductive ThreadCall where
  | joins (p : ThreadPtr)
  | joining (p : ThreadPtr) (tid : Tid)
  | clears (p : ThreadPtr)
  | detaches (p : ThreadPtr)
  | dies (p : ThreadPtr)
  deriving DecidableEq, Repr

def ThreadCall.object : ThreadCall → ThreadPtr
  | joins p => p
  | joining p _ => p
  | clears p => p
  | detaches p => p
  | dies p => p

/-- What a thread does next: the lines of `run`, the code of its callback,
`m_semaphore.wait()` in a constructor that the callback calls, or a line of
`join` or of the destructor. -/
inductive RunPc (κ : Type) where
  | start (p : ThreadPtr)
  | setPid (p : ThreadPtr)
  | setName (p : ThreadPtr)
  | swap (p : ThreadPtr)
  | notify (p : ThreadPtr) (cb : Option κ)
  | call (cb : Option κ)
  | user
  | wait (p : ThreadPtr)
  | within (c : ThreadCall)
  | returned
  deriving DecidableEq, Repr

/-- The object that a line of `run` has access to. -/
def RunPc.object {κ : Type} : RunPc κ → Option ThreadPtr
  | start p => some p
  | setPid p => some p
  | setName p => some p
  | swap p => some p
  | notify p _ => some p
  | _ => none

/-- The callback has begun. -/
def RunPc.begun {κ : Type} : RunPc κ → Bool
  | user => true
  | wait _ => true
  | within _ => true
  | returned => true
  | _ => false

theorem RunPc.object_of_begun {κ : Type} {pc : RunPc κ} (h : pc.begun = true) : pc.object = none := by
  cases pc <;> simp_all [begun, object]

theorem RunPc.begun_of_object {κ : Type} {pc : RunPc κ} {p : ThreadPtr} (h : pc.object = some p) :
    pc.begun = false := by
  cases hpc : pc.begun with
  | false => rfl
  | true =>
    rw [object_of_begun hpc] at h
    cases h

def RunPc.isUser {κ : Type} : RunPc κ → Bool
  | user => true
  | _ => false

def RunPc.isReturned {κ : Type} : RunPc κ → Bool
  | returned => true
  | _ => false

/-- The id, `t_thread`, `t_thread_name`, and the name the system knows. -/
structure OsThread (κ : Type) where
  pid : Pid
  this : Option ThreadPtr
  threadName : Str
  osName : Str
  pc : RunPc κ
  deriving DecidableEq, Repr

/-- A line of `run`, with the object it has access to. Nobody else sees
`t_thread`, which is set with `t_thread_name`. -/
def OsThread.runStep {κ : Type} (th : OsThread κ) (o : Thread κ) : OsThread κ × Thread κ :=
  match th.pc with
  | .start p => ({ th with this := some p, threadName := o.name, pc := .setPid p }, o)
  | .setPid p => ({ th with pc := .setName p }, { o with pid := some th.pid })
  | .setName p => ({ th with osName := o.name.take 15, pc := .swap p }, o)
  | .swap p => ({ th with pc := .notify p o.cb }, { o with cb := none })
  | .notify _ cb => ({ th with pc := .call cb }, { o with semaphore := o.semaphore + 1 })
  | _ => (th, o)

theorem RunPc.ne_wait_of_object {κ : Type} {pc : RunPc κ} {p q : ThreadPtr} (h : pc.object = some p) :
    pc ≠ .wait q := by
  rintro rfl
  cases h

theorem RunPc.ne_within_of_object {κ : Type} {pc : RunPc κ} {p : ThreadPtr} {c : ThreadCall}
    (h : pc.object = some p) : pc ≠ .within c := by
  rintro rfl
  cases h

theorem OsThread.runStep_ne_wait {κ : Type} {th : OsThread κ} {o : Thread κ} {p q : ThreadPtr}
    (h : th.pc.object = some p) : (th.runStep o).1.pc ≠ .wait q := by
  unfold runStep
  split <;> simp_all [RunPc.ne_wait_of_object]

theorem OsThread.runStep_ne_within {κ : Type} {th : OsThread κ} {o : Thread κ} {p : ThreadPtr} {c : ThreadCall}
    (h : th.pc.object = some p) : (th.runStep o).1.pc ≠ .within c := by
  unfold runStep
  split <;> simp_all [RunPc.ne_within_of_object]

/-- `run` leaves `m_thread` alone. -/
theorem OsThread.runStep_thread {κ : Type} (th : OsThread κ) (o : Thread κ) :
    (th.runStep o).2.thread = o.thread := by
  unfold runStep
  split <;> rfl

/-! ## The program -/

/-- What a constructor was called with, on which thread, and the thread it
made with its id. An empty name is `UNKNOW`. -/
structure Created (κ : Type) where
  maker : Tid
  tid : Tid
  pid : Pid
  cb : κ
  name : Str
  deriving DecidableEq, Repr

/-- The objects there are, the threads, and for the record: the calls of the
constructor, whether they have returned, the callbacks that have begun, and
the threads that were handed to `pthread_join` or `pthread_detach`; whether
`run`, a constructor or `set_name` went to an object that was gone, and
whether calls of `join` and of the destructor got in each other's way. -/
structure Threads (κ : Type) where
  mem : ThreadPtr → Option (Thread κ)
  os : Tid → Option (OsThread κ)
  created : ThreadPtr → Option (Created κ)
  owned : ThreadPtr → Bool
  ran : List (Tid × κ)
  handed : List Tid
  stale : Bool
  clash : Bool

/-- A thread calls the constructor, for which the system makes the thread
`made` if it can, takes its next step, calls `set_name`, calls `join` or the
destructor of an object it owns, comes back from `pthread_join`, or comes to
the end of its callback. -/
inductive ThreadAct (κ : Type) where
  | construct (t : Tid) (p : ThreadPtr) (cb : κ) (name : Str) (made : Option (Tid × Pid))
  | step (t : Tid)
  | setName (t : Tid) (name : Str)
  | join (t : Tid) (p : ThreadPtr)
  | joined (t : Tid) (ok : Bool)
  | destroy (t : Tid) (p : ThreadPtr)
  | ret (t : Tid)
  deriving DecidableEq, Repr

namespace Threads

variable {κ : Type} (s : Threads κ)

@[simps] def setOs (t : Tid) (th : OsThread κ) : Threads κ :=
  { s with os := Function.update s.os t (some th) }

@[simps] def setMem (p : ThreadPtr) (o : Option (Thread κ)) : Threads κ :=
  { s with mem := Function.update s.mem p o }

/-- The constructor has returned. -/
@[simps] def own (p : ThreadPtr) : Threads κ := { s with owned := Function.update s.owned p true }

@[simps] def begins (t : Tid) (cb : κ) : Threads κ := { s with ran := s.ran ++ [(t, cb)] }

/-- `pthread_join` or `pthread_detach` gets the thread. -/
@[simps] def handOver (tid : Tid) : Threads κ :=
  { s with handed := s.handed ++ [tid], clash := s.clash || s.handed.contains tid }

/-- Something is done with an object that is gone. -/
@[simps] def goesStale : Threads κ := { s with stale := true }

/-- A call finds that another one was there. -/
@[simps] def clashes : Threads κ := { s with clash := true }

@[simps] def makes (p : ThreadPtr) (g : Created κ) : Threads κ :=
  { s with created := Function.update s.created p (some g) }

/-- The main thread, before it has made any other. -/
def create : Threads κ where
  mem := fun _ => none
  os := Function.update (fun _ => none) 0 (some ⟨0, none, str "UNKNOW", [], .user⟩)
  created := fun _ => none
  owned := fun _ => false
  ran := []
  handed := []
  stale := false
  clash := false

/-- The constructor up to its wait. If there is no thread it throws, and the
object is gone. -/
def construct (t : Tid) (th : OsThread κ) (p : ThreadPtr) (cb : κ) (name : Str) :
    Option (Tid × Pid) → Option (Threads κ)
  | none => some s
  | some (tid, pid) =>
      if s.created p = none ∧ s.os tid = none then
        let name := if name.isEmpty then str "UNKNOW" else name
        let s := s.setMem p (some ⟨none, some tid, some cb, name, 0⟩)
        let s := s.setOs tid ⟨pid, none, str "UNKNOW", [], .start p⟩
        some ((s.makes p ⟨t, tid, pid, cb, name⟩).setOs t { th with pc := .wait p })
      else none

/-- The next line of `join` or of the destructor. `pthread_join` comes back
when the system says so (`joined`). -/
def proceed (t : Tid) (th : OsThread κ) : ThreadCall → Option (Threads κ)
  | .joins p =>
      match (s.mem p).bind Thread.thread with
      | none => some s.clashes
      | some tid => some ((s.handOver tid).setOs t { th with pc := .within (.joining p tid) })
  | .joining _ _ => none
  | .clears p =>
      match s.mem p with
      | none => some s.clashes
      | some o => some ((s.setMem p (some { o with thread := none })).setOs t { th with pc := .user })
  | .detaches p =>
      match (s.mem p).bind Thread.thread with
      | none => some s.clashes
      | some tid => some ((s.handOver tid).setOs t { th with pc := .within (.dies p) })
  | .dies p =>
      match s.mem p with
      | none => some s.clashes
      | some _ => some ((s.setMem p none).setOs t { th with pc := .user })

/-- The next step of a thread, if it has one and does not wait. -/
def advance (t : Tid) (th : OsThread κ) : Option (Threads κ) :=
  match th.pc with
  | .call none => none
  | .call (some cb) => some ((s.begins t cb).setOs t { th with pc := .user })
  | .wait p =>
      match s.mem p with
      | none => some s.goesStale
      | some o =>
          if o.semaphore = 0 then none
          else
            let s := s.setMem p (some { o with semaphore := o.semaphore - 1 })
            some ((s.own p).setOs t { th with pc := .user })
  | .within c => s.proceed t th c
  | pc =>
      match pc.object with
      | none => none
      | some p =>
          match s.mem p with
          | none => some s.goesStale
          | some o => some ((s.setMem p (some (th.runStep o).2)).setOs t (th.runStep o).1)

/-- Nobody else sees `t_thread_name`, which is set with `m_name`. There is no
telling what is written when the object is gone. -/
def setName (t : Tid) (th : OsThread κ) (name : Str) : Threads κ :=
  match th.this with
  | none => s.setOs t { th with threadName := name }
  | some p =>
      match s.mem p with
      | none => s.goesStale.setOs t { th with threadName := name }
      | some o => (s.setMem p (some { o with name := name })).setOs t { th with threadName := name }

/-- `pthread_join` comes back: without an error only when the thread has ended.
It may have errors for reasons of its own, as for a thread that joins itself
or one that waits for it; then `join` reads `m_name` for the log. -/
def joined (t : Tid) (th : OsThread κ) (ok : Bool) : Option (Threads κ) :=
  match th.pc with
  | .within (.joining p tid) =>
      if ok then
        if (s.os tid).any (·.pc.isReturned) then some (s.setOs t { th with pc := .within (.clears p) })
        else none
      else
        match s.mem p with
        | none => some s.clashes
        | some _ => some (s.setOs t { th with pc := .within (.clears p) })
  | _ => none

/-- `join` goes on if there is a thread. -/
def join (t : Tid) (th : OsThread κ) (p : ThreadPtr) (o : Thread κ) : Threads κ :=
  if o.thread.isSome then s.setOs t { th with pc := .within (.joins p) } else s

def destroy (t : Tid) (th : OsThread κ) (p : ThreadPtr) (o : Thread κ) : Threads κ :=
  s.setOs t { th with pc := .within (if o.thread.isSome then .detaches p else .dies p) }

/-- The thread `t`, if it runs code of the program. -/
def user (t : Tid) : Option (OsThread κ) := (s.os t).filter (·.pc.isUser)

/-- An object that is there and whose constructor has returned: only then does
somebody own it. -/
def handle (p : ThreadPtr) : Option (Thread κ) := if s.owned p then s.mem p else none

def step : ThreadAct κ → Option (Threads κ)
  | .construct t p cb name made => do s.construct t (← s.user t) p cb name made
  | .step t => do s.advance t (← s.os t)
  | .setName t name => do some (s.setName t (← s.user t) name)
  | .join t p => do some (s.join t (← s.user t) p (← s.handle p))
  | .joined t ok => do s.joined t (← s.os t) ok
  | .destroy t p => do some (s.destroy t (← s.user t) p (← s.handle p))
  | .ret t => do some (s.setOs t { ← s.user t with pc := .returned })

/-- The callbacks that the thread has begun. -/
def runs (t : Tid) : List κ := (s.ran.filter (·.1 = t)).map Prod.snd

@[simp] theorem setOs_runs (t : Tid) (th : OsThread κ) : (s.setOs t th).runs = s.runs := rfl
@[simp] theorem setMem_runs (p : ThreadPtr) (o : Option (Thread κ)) : (s.setMem p o).runs = s.runs := rfl
@[simp] theorem own_runs (p : ThreadPtr) : (s.own p).runs = s.runs := rfl
@[simp] theorem handOver_runs (tid : Tid) : (s.handOver tid).runs = s.runs := rfl
@[simp] theorem goesStale_runs : s.goesStale.runs = s.runs := rfl
@[simp] theorem clashes_runs : s.clashes.runs = s.runs := rfl
@[simp] theorem makes_runs (p : ThreadPtr) (g : Created κ) : (s.makes p g).runs = s.runs := rfl

@[simp] theorem begins_runs (t t' : Tid) (cb : κ) :
    (s.begins t cb).runs t' = s.runs t' ++ if t' = t then [cb] else [] := by
  by_cases h : t' = t
  · simp [runs, h]
  · simp [runs, h, Ne.symm h]

/-- A change to an object that is gone is none. -/
theorem setMem_map_none {s : Threads κ} {p : ThreadPtr} (h : s.mem p = none) {f : Thread κ → Thread κ} :
    s.setMem p ((s.mem p).map f) = s := by
  rw [h, Option.map_none, setMem, ← h, Function.update_eq_self]

theorem user_eq {s : Threads κ} {t : Tid} {th : OsThread κ} (h : s.user t = some th) :
    s.os t = some th ∧ th.pc = .user := by
  obtain ⟨hos, hpc⟩ := Option.filter_eq_some_iff.mp h
  refine ⟨hos, ?_⟩
  cases hp : th.pc with
  | user => rfl
  | _ => rw [hp] at hpc; cases hpc

theorem handle_eq {s : Threads κ} {p : ThreadPtr} {o : Thread κ} (h : s.handle p = some o) :
    s.mem p = some o ∧ s.owned p = true := by
  unfold handle at h
  split at h
  · next howned => exact ⟨h, howned⟩
  · cases h

end Threads

/-! ## What a step does -/

/-- The thread has been handed over in this call, or before it. -/
def ThreadCall.past : ThreadCall → Bool
  | joins _ => false
  | detaches _ => false
  | _ => true

/-- The steps, one by one: those of `construct`, of `run` and of its callback,
of `set_name`, and of `join` and the destructor, which begin, hand the thread
over, come back from `pthread_join`, and end. -/
inductive Threads.Step {κ : Type} (s : Threads κ) : ThreadAct κ → Threads κ → Prop
  | throws {t p cb name} : Step s (.construct t p cb name none) s
  | makes {t th p cb name} (g : Created κ) (hth : s.os t = some th) (hpc : th.pc = .user)
      (hmaker : g.maker = t) (hp : s.created p = none) (htid : s.os g.tid = none) :
      Step s (.construct t p cb name (some (g.tid, g.pid)))
        ((((s.setMem p (some ⟨none, some g.tid, some g.cb, g.name, 0⟩)).setOs g.tid
          ⟨g.pid, none, str "UNKNOW", [], .start p⟩).makes p g).setOs t { th with pc := .wait p })
  | waits {t th p o} (hth : s.os t = some th) (hpc : th.pc = .wait p) (ho : s.mem p = some o)
      (hsem : o.semaphore ≠ 0) :
      Step s (.step t) (((s.setMem p (some { o with semaphore := o.semaphore - 1 })).own p).setOs t
        { th with pc := .user })
  | runs {t th p o} (hth : s.os t = some th) (hp : th.pc.object = some p) (ho : s.mem p = some o) :
      Step s (.step t) ((s.setMem p (some (th.runStep o).2)).setOs t (th.runStep o).1)
  | gone {t th p} (hth : s.os t = some th) (hp : th.pc = .wait p ∨ th.pc.object = some p)
      (ho : s.mem p = none) : Step s (.step t) s.goesStale
  | calls {t th cb} (hth : s.os t = some th) (hpc : th.pc = .call (some cb)) :
      Step s (.step t) ((s.begins t cb).setOs t { th with pc := .user })
  | returns {t th} (hth : s.os t = some th) (hpc : th.pc = .user) :
      Step s (.ret t) (s.setOs t { th with pc := .returned })
  | names {t th name} (hth : s.os t = some th) (hpc : th.pc = .user) (hthis : th.this = none) :
      Step s (.setName t name) (s.setOs t { th with threadName := name })
  | renames {t th p o name} (hth : s.os t = some th) (hpc : th.pc = .user) (hthis : th.this = some p)
      (ho : s.mem p = some o) :
      Step s (.setName t name)
        ((s.setMem p (some { o with name := name })).setOs t { th with threadName := name })
  | late {t th p name} (huser : s.user t = some th) (hthis : th.this = some p) (ho : s.mem p = none) :
      Step s (.setName t name) (s.goesStale.setOs t { th with threadName := name })
  | passes {t p} : Step s (.join t p) s
  | starts {a t th p o} {c : ThreadCall} (ha : a = .join t p ∨ a = .destroy t p)
      (hth : s.os t = some th) (hpc : th.pc = .user) (ho : s.mem p = some o) (howned : s.owned p = true)
      (hobject : c.object = p) (hpast : c.past = !o.thread.isSome) :
      Step s a (s.setOs t { th with pc := .within c })
  | hands {t th tid} {c c' : ThreadCall} (hth : s.os t = some th) (hpc : th.pc = .within c)
      (hpast : c.past = false) (htid : (s.mem c.object).bind Thread.thread = some tid)
      (hobject : c'.object = c.object) (hpast' : c'.past = true) :
      Step s (.step t) ((s.handOver tid).setOs t { th with pc := .within c' })
  | comesBack {t th ok} {c c' : ThreadCall} (hth : s.os t = some th) (hpc : th.pc = .within c)
      (hobject : c'.object = c.object) (hpast : c'.past = c.past) :
      Step s (.joined t ok) (s.setOs t { th with pc := .within c' })
  | ends {t th o o'} {c : ThreadCall} (hth : s.os t = some th) (hpc : th.pc = .within c)
      (hpast : c.past = true) (ho : s.mem c.object = some o)
      (ho' : ∀ y, o' = some y → y = { o with thread := none }) :
      Step s (.step t) ((s.setMem c.object o').setOs t { th with pc := .user })
  | clashes {a t th} {c : ThreadCall} (ha : a = .step t ∨ ∃ ok, a = .joined t ok)
      (hth : s.os t = some th) (hpc : th.pc = .within c)
      (hgone : if c.past then s.mem c.object = none else (s.mem c.object).bind Thread.thread = none) :
      Step s a s.clashes

namespace Threads

variable {κ : Type} {s s' : Threads κ} {t : Tid} {th : OsThread κ}

theorem proceed_cases (hth : s.os t = some th) {c : ThreadCall} (hpc : th.pc = .within c)
    (h : s.proceed t th c = some s') : s.Step (.step t) s' := by
  cases c with
  | joins p =>
    simp only [proceed] at h
    split at h
    · next hnone =>
      cases h
      exact .clashes (.inl rfl) hth hpc hnone
    · next tid htid =>
      cases h
      exact .hands hth hpc rfl htid rfl rfl
  | joining p tid => cases h
  | clears p =>
    simp only [proceed] at h
    split at h
    · next hnone =>
      cases h
      exact .clashes (.inl rfl) hth hpc hnone
    · next o ho =>
      cases h
      exact .ends hth hpc rfl ho fun y hy => (Option.some.inj hy).symm
  | detaches p =>
    simp only [proceed] at h
    split at h
    · next hnone =>
      cases h
      exact .clashes (.inl rfl) hth hpc hnone
    · next tid htid =>
      cases h
      exact .hands hth hpc rfl htid rfl rfl
  | dies p =>
    simp only [proceed] at h
    split at h
    · next hnone =>
      cases h
      exact .clashes (.inl rfl) hth hpc hnone
    · next o ho =>
      cases h
      exact .ends hth hpc rfl ho nofun

theorem joined_cases (hth : s.os t = some th) {ok : Bool} (h : s.joined t th ok = some s') :
    s.Step (.joined t ok) s' := by
  unfold joined at h
  split at h
  · next p tid hpc =>
    split at h
    · split at h
      · cases h
        exact .comesBack hth hpc rfl rfl
      · cases h
    · split at h
      · next hnone =>
        cases h
        exact .clashes (.inr ⟨_, rfl⟩) hth hpc hnone
      · cases h
        exact .comesBack hth hpc rfl rfl
  · cases h

theorem advance_cases (hth : s.os t = some th) (h : s.advance t th = some s') : s.Step (.step t) s' := by
  unfold advance at h
  split at h
  · cases h
  · next cb hpc =>
    cases h
    exact .calls hth hpc
  · next p hpc =>
    split at h
    · next hnone =>
      cases h
      exact .gone hth (.inl hpc) hnone
    · next o ho =>
      split at h
      · cases h
      · next hsem =>
        cases h
        exact .waits hth hpc ho hsem
  · next c hpc => exact proceed_cases hth hpc h
  · split at h
    · cases h
    · next p hp =>
      split at h
      · next hnone =>
        cases h
        exact .gone hth (.inr hp) hnone
      · next o ho =>
        cases h
        exact .runs hth hp ho

/-- **What a step does** is one of the cases of `Step`. -/
theorem step_cases {a : ThreadAct κ} (h : s.step a = some s') : s.Step a s' := by
  cases a with
  | construct t p cb name made =>
    obtain ⟨th, hth, h⟩ := Option.bind_eq_some_iff.mp h
    obtain ⟨hth, hpc⟩ := user_eq hth
    match made with
    | none =>
      cases h
      exact .throws
    | some (tid, pid) =>
      simp only [construct] at h
      split at h
      · next hnew =>
        cases h
        exact .makes ⟨t, tid, pid, cb, _⟩ hth hpc rfl hnew.1 hnew.2
      · cases h
  | step t =>
    obtain ⟨th, hth, h⟩ := Option.bind_eq_some_iff.mp h
    exact advance_cases hth h
  | setName t name =>
    obtain ⟨th, huser, h⟩ := Option.bind_eq_some_iff.mp h
    obtain ⟨hth, hpc⟩ := user_eq huser
    cases h
    unfold setName
    split
    · next hthis => exact .names hth hpc hthis
    · next p hthis =>
      split
      · next hnone => exact .late huser hthis hnone
      · next o ho => exact .renames hth hpc hthis ho
  | join t p =>
    obtain ⟨th, hth, h⟩ := Option.bind_eq_some_iff.mp h
    obtain ⟨o, ho, h⟩ := Option.bind_eq_some_iff.mp h
    obtain ⟨hth, hpc⟩ := user_eq hth
    obtain ⟨ho, howned⟩ := handle_eq ho
    cases h
    unfold join
    split
    · next hthread => exact .starts (.inl rfl) hth hpc ho howned rfl (by rw [hthread]; rfl)
    · exact .passes
  | joined t ok =>
    obtain ⟨th, hth, h⟩ := Option.bind_eq_some_iff.mp h
    exact joined_cases hth h
  | destroy t p =>
    obtain ⟨th, hth, h⟩ := Option.bind_eq_some_iff.mp h
    obtain ⟨o, ho, h⟩ := Option.bind_eq_some_iff.mp h
    obtain ⟨hth, hpc⟩ := user_eq hth
    obtain ⟨ho, howned⟩ := handle_eq ho
    cases h
    refine .starts (.inr rfl) hth hpc ho howned ?_ ?_
    · split <;> rfl
    · cases o.thread <;> rfl
  | ret t =>
    obtain ⟨th, hth, h⟩ := Option.bind_eq_some_iff.mp h
    obtain ⟨hth, hpc⟩ := user_eq hth
    cases h
    exact .returns hth hpc

end Threads

end TinyTcp.Sync
