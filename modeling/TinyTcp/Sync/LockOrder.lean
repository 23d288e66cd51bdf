/-
TinyTcp.Sync.LockOrder — which locks the program takes inside which, and
that its threads do not block each other forever.

The locks are those of `Config`, of each `ConfigVar`, of the
`LoggerManager`, of each `Logger` and `LogAppender` (`src/config.h`,
`src/log.cc`) and of the `TimerManager` (`src/timer.cc`). A `Call` is a call
of one of their functions together with how its tests come out, and `prog`
is the sequence of locks it takes then. Every lock is held by a scoped
object, so the sections are nested; `add_timer` unlocks before it calls
`on_timer_inserted_at_front`.

A listener runs under the lock of its variable, and the callback of `visit`
under that of the registry. They may take the locks behind, as the listener
of `logs` does (`onChange_above`), but not those in front: `Call.Admissible`
asks for no more. `no_deadlock` is about any number of threads with any
calls, whichever waiting thread a lock is given to.
-/
import TinyTcp.Lib.Locking
import TinyTcp.Log.Logger
import TinyTcp.Config.Registry

namespace TinyTcp.Sync

open TinyTcp.Lib TinyTcp.Log TinyTcp.Config

/-! ## The locks -/

inductive Lock where
  | config
  | var (p : VarPtr)
  | loggerManager
  | logger (name : Str)
  | appender (p : AppenderPtr)
  | timers
  deriving DecidableEq, Repr

/-- The order they are taken in. -/
def Lock.rank : Lock → Nat
  | .config => 0
  | .var _ => 1
  | .loggerManager => 2
  | .logger _ => 3
  | .appender _ => 4
  | .timers => 0

abbrev Prog := LockProg Lock

/-- `ReadLock` -/
def readLock (l : Lock) (body : Prog) : Prog := .locked l .shared body

/-- `WriteLock`, and `Lock` of a `Mutex` -/
def writeLock (l : Lock) (body : Prog) : Prog := .locked l .exclusive body

/-! ## `src/log.cc` -/

/-- `Logger::log`, with the appenders that let the event through. -/
def log (name : Str) (appenders : List AppenderPtr) : Prog :=
  writeLock (.logger name) (.all (appenders.map fun p => writeLock (.appender p) .skip))

/-- A log statement: nothing, if the logger's level does not let it through. -/
abbrev Statement := Option (Str × List AppenderPtr)

def Statement.prog : Statement → Prog
  | none => .skip
  | some (name, appenders) => log name appenders

/-- `Logger::add_appender`, for an appender that has no formatter yet or has one. -/
def addAppender (name : Str) (p : AppenderPtr) (fresh : Bool) : Prog :=
  writeLock (.logger name) (.seq (writeLock (.appender p) .skip)
    (if fresh then writeLock (.appender p) .skip else .skip))

/-- `Logger::to_yaml_string` -/
def loggerToYaml (name : Str) (appenders : List AppenderPtr) : Prog :=
  writeLock (.logger name) (.all (appenders.map fun p => writeLock (.appender p) .skip))

/-- What the listener of `logs` does for one definition: it gets the logger, if
the definition is new or another one, sets its formatter, if there is one,
and gives it its appenders, for files or for the console. -/
structure Defined where
  name : Str
  gets : Bool
  formats : Bool
  appenders : List (AppenderPtr × Bool)
  deriving DecidableEq, Repr

def Defined.prog (d : Defined) : Prog :=
  .all [
    if d.gets then writeLock .loggerManager .skip else .skip,
    if d.formats then writeLock (.logger d.name) .skip else .skip,
    writeLock (.logger d.name) .skip,
    .all (d.appenders.map fun a =>
      -- the constructor of a `FileLogAppender` opens the file
      .seq (if a.2 then writeLock (.appender a.1) .skip else .skip) (addAppender d.name a.1 true))]

/-- The listener of `logs`. -/
def onChange (entry : Statement) (defined : List Defined) (deleted : List Str) : Prog :=
  .all [
    entry.prog,
    .all (defined.map Defined.prog),
    .all (deleted.map fun name =>
      .seq (writeLock .loggerManager .skip) (writeLock (.logger name) .skip))]

/-! ## `src/config.h` -/

/-- `ConfigVar::to_string`; the statement is for an exception. -/
def toString (p : VarPtr) (failed : Statement) : Prog := .seq (readLock (.var p) .skip) failed.prog

/-- `ConfigVar::set_value`, with the callbacks it comes to. It stores nothing if
the value is the old one or a callback throws. -/
def setValue (p : VarPtr) (cbs : List Prog) (stores : Bool) : Prog :=
  .seq (readLock (.var p) (.all cbs)) (if stores then writeLock (.var p) .skip else .skip)

/-- `ConfigVar::from_string`: there is nothing to set if the text does not convert. -/
def fromString (p : VarPtr) (set : Option (List Prog × Bool)) (failed : Statement) : Prog :=
  .seq (match set with
    | none => .skip
    | some (cbs, stores) => setValue p cbs stores) failed.prog

/-- How `look_up` ends: there is such a variable, there is one of another type,
whose value is put into the message if it is printed, or the name is
invalid or new. -/
inductive LookUp where
  | found (message : Statement)
  | mismatch (p : VarPtr) (failed : Statement) (message : Statement)
  | invalid (message : Statement)
  | new
  deriving DecidableEq, Repr

def lookUp : LookUp → Prog
  | .found message => writeLock .config message.prog
  | .mismatch p failed message => writeLock .config (match message with
      | none => .skip
      | some _ => .seq (toString p failed) message.prog)
  | .invalid message => writeLock .config message.prog
  | .new => writeLock .config .skip

/-- `Config::load_from_yaml`: the messages for invalid names, and the nodes with
their variables. -/
def loadFromYaml (messages : List Statement)
    (nodes : List (Option (VarPtr × Option (List Prog × Bool) × Statement))) : Prog :=
  .seq (.all (messages.map Statement.prog)) (.all (nodes.map fun node =>
    .seq (readLock .config .skip) (match node with
      | none => .skip
      | some (p, set, failed) => fromString p set failed)))

/-! ## Calls -/

inductive Call where
  | statement (message : Statement)
  | addAppender (name : Str) (p : AppenderPtr) (fresh : Bool)
  /-- `del_appender`, `clear_appenders`, `set_formatter` and `formatter` of a logger -/
  | logger (name : Str)
  | loggerToYaml (name : Str) (appenders : List AppenderPtr)
  /-- `set_formatter`, `formatter`, `to_yaml_string` and `reopen` of an appender -/
  | appender (p : AppenderPtr)
  | getLogger
  /-- the mutex of `LoggerManager::to_yaml_string` is its own -/
  | managerToYaml (loggers : List (Str × List AppenderPtr))
  | lookUp (result : LookUp)
  /-- `look_up` without a default, and `look_up_base` -/
  | find
  | visit (cbs : List Prog)
  | toString (p : VarPtr) (failed : Statement)
  /-- `value` and `get_listener` -/
  | value (p : VarPtr)
  | setValue (p : VarPtr) (cbs : List Prog) (stores : Bool)
  | fromString (p : VarPtr) (set : Option (List Prog × Bool)) (failed : Statement)
  /-- `add_listener`, `del_listener` and `clear_listener` -/
  | listeners (p : VarPtr)
  | loadFromYaml (messages : List Statement)
      (nodes : List (Option (VarPtr × Option (List Prog × Bool) × Statement)))
  /-- `add_timer`, and `cancel`, `refresh` and `reset` of a timer -/
  | timer
  /-- `get_next_time` and `has_timer` -/
  | nextTime
  /-- the set is looked at first, and looked at again if there are timers -/
  | listExpiredCb (empty : Bool)
  deriving Repr

def Call.prog : Call → Prog
  | .statement message => message.prog
  | .addAppender name p fresh => Sync.addAppender name p fresh
  | .logger name => writeLock (.logger name) .skip
  | .loggerToYaml name appenders => Sync.loggerToYaml name appenders
  | .appender p => writeLock (.appender p) .skip
  | .getLogger => writeLock .loggerManager .skip
  | .managerToYaml loggers => .all (loggers.map fun l => Sync.loggerToYaml l.1 l.2)
  | .lookUp result => Sync.lookUp result
  | .find => readLock .config .skip
  | .visit cbs => readLock .config (.all cbs)
  | .toString p failed => Sync.toString p failed
  | .value p => readLock (.var p) .skip
  | .setValue p cbs stores => Sync.setValue p cbs stores
  | .fromString p set failed => Sync.fromString p set failed
  | .listeners p => writeLock (.var p) .skip
  | .loadFromYaml messages nodes => Sync.loadFromYaml messages nodes
  | .timer => writeLock .timers .skip
  | .nextTime => readLock .timers .skip
  | .listExpiredCb empty =>
      .seq (readLock .timers .skip) (if empty then .skip else writeLock .timers .skip)

/-- A listener takes locks behind those of the variables only. -/
def Listener (cb : Prog) : Prop := cb.Above Lock.rank 2

/-- The callback of `visit` takes locks behind that of the registry only. -/
def Visitor (cb : Prog) : Prop := cb.Above Lock.rank 1

def Call.Admissible : Call → Prop
  | .visit cbs => ∀ cb ∈ cbs, Visitor cb
  | .setValue _ cbs _ => ∀ cb ∈ cbs, Listener cb
  | .fromString _ set _ => ∀ s ∈ set, ∀ cb ∈ s.1, Listener cb
  | .loadFromYaml _ nodes => ∀ node ∈ nodes, ∀ n ∈ node, ∀ s ∈ n.2.1, ∀ cb ∈ s.1, Listener cb
  | _ => True

/-! ## Every call is in order -/

theorem appenders_above (appenders : List AppenderPtr) :
    (LockProg.all (appenders.map fun p => writeLock (.appender p) .skip)).Above Lock.rank 4 := by
  refine LockProg.all_above fun q hq => ?_
  obtain ⟨p, -, rfl⟩ := List.mem_map.mp hq
  exact ⟨Nat.le_refl 4, trivial⟩

theorem log_above (name : Str) (appenders : List AppenderPtr) :
    (log name appenders).Above Lock.rank 3 := ⟨Nat.le_refl 3, appenders_above appenders⟩

theorem statement_above (message : Statement) : message.prog.Above Lock.rank 3 := by
  cases message with
  | none => trivial
  | some m => exact log_above m.1 m.2

theorem addAppender_above (name : Str) (p : AppenderPtr) (fresh : Bool) :
    (addAppender name p fresh).Above Lock.rank 3 := by
  refine ⟨Nat.le_refl 3, ⟨Nat.le_refl 4, trivial⟩, ?_⟩
  cases fresh with
  | true => exact ⟨Nat.le_refl 4, trivial⟩
  | false => trivial

theorem defined_above (d : Defined) : d.prog.Above Lock.rank 2 := by
  refine LockProg.all_above ?_
  simp only [List.mem_cons, List.not_mem_nil, or_false]
  rintro p (rfl | rfl | rfl | rfl)
  · cases d.gets with
    | true => exact ⟨Nat.le_refl 2, trivial⟩
    | false => trivial
  · cases d.formats with
    | true => exact ⟨Nat.le_succ 2, trivial⟩
    | false => trivial
  · exact ⟨Nat.le_succ 2, trivial⟩
  · refine LockProg.all_above fun q hq => ?_
    obtain ⟨a, -, rfl⟩ := List.mem_map.mp hq
    refine ⟨?_, (addAppender_above d.name a.1 true).mono (Nat.le_succ 2)⟩
    cases a.2 with
    | true => exact ⟨Nat.le_add_left 2 2, trivial⟩
    | false => trivial

/-- The listener of `logs` may be one. -/
theorem onChange_above (entry : Statement) (defined : List Defined) (deleted : List Str) :
    Listener (onChange entry defined deleted) := by
  refine LockProg.all_above ?_
  simp only [List.mem_cons, List.not_mem_nil, or_false]
  rintro p (rfl | rfl | rfl)
  · exact (statement_above entry).mono (Nat.le_succ 2)
  · refine LockProg.all_above fun q hq => ?_
    obtain ⟨d, -, rfl⟩ := List.mem_map.mp hq
    exact defined_above d
  · refine LockProg.all_above fun q hq => ?_
    obtain ⟨name, -, rfl⟩ := List.mem_map.mp hq
    exact ⟨⟨Nat.le_refl 2, trivial⟩, ⟨Nat.le_succ 2, trivial⟩⟩

theorem setValue_above (p : VarPtr) {cbs : List Prog} (h : ∀ cb ∈ cbs, Listener cb) (stores : Bool) :
    (setValue p cbs stores).Above Lock.rank 1 := by
  refine ⟨⟨Nat.le_refl 1, LockProg.all_above h⟩, ?_⟩
  cases stores with
  | true => exact ⟨Nat.le_refl 1, trivial⟩
  | false => trivial

theorem toString_above (p : VarPtr) (failed : Statement) : (toString p failed).Above Lock.rank 1 :=
  ⟨⟨Nat.le_refl 1, trivial⟩, (statement_above failed).mono (by decide)⟩

theorem fromString_above (p : VarPtr) {set : Option (List Prog × Bool)}
    (h : ∀ s ∈ set, ∀ cb ∈ s.1, Listener cb) (failed : Statement) :
    (fromString p set failed).Above Lock.rank 1 := by
  refine ⟨?_, (statement_above failed).mono (by decide)⟩
  cases set with
  | none => trivial
  | some s => exact setValue_above p (h s rfl) s.2

theorem lookUp_above (result : LookUp) : (lookUp result).Above Lock.rank 0 := by
  cases result with
  | found message => exact ⟨Nat.zero_le _, (statement_above message).mono (by decide)⟩
  | mismatch p failed message =>
    refine ⟨Nat.zero_le _, ?_⟩
    cases message with
    | none => trivial
    | some m => exact ⟨toString_above p failed, (statement_above (some m)).mono (by decide)⟩
  | invalid message => exact ⟨Nat.zero_le _, (statement_above message).mono (by decide)⟩
  | new => exact ⟨Nat.zero_le _, trivial⟩

theorem call_above {c : Call} (h : c.Admissible) : c.prog.Above Lock.rank 0 := by
  cases c with
  | statement message => exact (statement_above message).mono (Nat.zero_le _)
  | addAppender name p fresh => exact (addAppender_above name p fresh).mono (Nat.zero_le _)
  | logger name => exact ⟨Nat.zero_le _, trivial⟩
  | loggerToYaml name appenders => exact ⟨Nat.zero_le _, appenders_above appenders⟩
  | appender p => exact ⟨Nat.zero_le _, trivial⟩
  | getLogger => exact ⟨Nat.zero_le _, trivial⟩
  | managerToYaml loggers =>
    refine LockProg.all_above fun q hq => ?_
    obtain ⟨l, -, rfl⟩ := List.mem_map.mp hq
    exact ⟨Nat.zero_le _, appenders_above l.2⟩
  | lookUp result => exact lookUp_above result
  | find => exact ⟨Nat.zero_le _, trivial⟩
  | visit cbs => exact ⟨Nat.zero_le _, LockProg.all_above h⟩
  | toString p failed => exact (toString_above p failed).mono (Nat.zero_le _)
  | value p => exact ⟨Nat.zero_le _, trivial⟩
  | setValue p cbs stores => exact (setValue_above p h stores).mono (Nat.zero_le _)
  | fromString p set failed => exact (fromString_above p h failed).mono (Nat.zero_le _)
  | listeners p => exact ⟨Nat.zero_le _, trivial⟩
  | loadFromYaml messages nodes =>
    refine ⟨LockProg.all_above fun q hq => ?_, LockProg.all_above fun q hq => ?_⟩
    · obtain ⟨m, -, rfl⟩ := List.mem_map.mp hq
      exact (statement_above m).mono (Nat.zero_le _)
    · obtain ⟨node, hnode, rfl⟩ := List.mem_map.mp hq
      refine ⟨⟨Nat.zero_le _, trivial⟩, ?_⟩
      cases node with
      | none => trivial
      | some n => exact (fromString_above n.1 (h _ hnode n rfl) n.2.2).mono (Nat.zero_le _)
  | timer => exact ⟨Nat.zero_le _, trivial⟩
  | nextTime => exact ⟨Nat.zero_le _, trivial⟩
  | listExpiredCb empty =>
    refine ⟨⟨Nat.zero_le _, trivial⟩, ?_⟩
    cases empty with
    | true => trivial
    | false => exact ⟨Nat.zero_le _, trivial⟩

/-! ## No deadlock -/

/-- The threads of a program, each with its calls. -/
def threads (calls : List (List Call)) : List (LockThread Lock) :=
  (calls.map fun cs => cs.map Call.prog).map LockThread.start

/-- **No deadlock.** Any threads with any calls, in any interleaving, and
whichever of the threads that wait for a lock it is given to: two threads
never have the same lock, unless both only read, and as long as a thread has
anything left to do some thread can go on. A run that cannot be continued
has done all calls, and every run ends. -/
theorem no_deadlock (policy : LockPolicy Lock) (calls : List (List Call))
    (hadmissible : ∀ cs ∈ calls, ∀ c ∈ cs, c.Admissible) (ks : List Nat) {ts : List (LockThread Lock)}
    (hrun : run policy.step (threads calls) ks = some ts) :
    LockPolicy.Exclusive ts ∧ ks.length ≤ LockPolicy.work (threads calls) ∧
      ((∃ k, (policy.step ts k).isSome = true) ∨
        (∀ t ∈ ts, t.todo = [] ∧ t.held = []) ∧ ks.length = LockPolicy.work (threads calls)) := by
  have habove : ∀ ps ∈ calls.map fun cs => cs.map Call.prog, ∀ p ∈ ps, p.Above Lock.rank 0 := by
    intro ps hps p hp
    obtain ⟨cs, hcs, rfl⟩ := List.mem_map.mp hps
    obtain ⟨c, hc, rfl⟩ := List.mem_map.mp hp
    exact call_above (hadmissible cs hcs c hc)
  exact LockPolicy.run_complete policy habove hrun

/-- One thread looks up a variable under a wrong type, another sets the variable
`logs`, with its listener, and a third adds a listener. -/
def threeThreads : List (List Call) :=
  [[.lookUp (.mismatch 0 none (some (rootName, [0])))],
    [.setValue 0 [onChange (some (rootName, [0])) [⟨str "system", true, true, [(1, true)]⟩] []] true],
    [.getLogger, .listeners 0]]

/-- The third thread waits for the second, and the first one for the third, but
the second can go on. -/
theorem no_deadlock_threeThreads :
    ∃ ts, run LockPolicy.writersFirst.step (threads threeThreads) [1, 0, 2, 2] = some ts ∧
      (LockPolicy.writersFirst.step ts 0).isSome = false ∧
      (LockPolicy.writersFirst.step ts 2).isSome = false ∧
      ∃ k, (LockPolicy.writersFirst.step ts k).isSome = true := by
  have hstate : (run LockPolicy.writersFirst.step (threads threeThreads) [1, 0, 2, 2]).map
      (fun ts => ((LockPolicy.writersFirst.step ts 0).isSome,
        (LockPolicy.writersFirst.step ts 2).isSome, (ts[0]?).map fun t => t.held.length)) =
      some (false, false, some 1) := by decide +kernel
  obtain ⟨ts, hrun, heq⟩ := Option.map_eq_some_iff.mp hstate
  simp only [Prod.mk.injEq] at heq
  obtain ⟨hfirst, hthird, hheld⟩ := heq
  have hadmissible : ∀ cs ∈ threeThreads, ∀ c ∈ cs, c.Admissible := by
    simp [threeThreads, Call.Admissible, onChange_above]
  obtain ⟨-, -, hgo | hdone⟩ := no_deadlock LockPolicy.writersFirst threeThreads hadmissible _ hrun
  · exact ⟨ts, hrun, hfirst, hthird, hgo⟩
  · obtain ⟨t, ht, hlength⟩ := Option.map_eq_some_iff.mp hheld
    rw [(hdone.1 t (List.mem_of_getElem? ht)).2] at hlength
    cases hlength

end TinyTcp.Sync
