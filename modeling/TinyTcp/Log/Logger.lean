/-
TinyTcp.Log.Logger — `Logger` and `LoggerManager` of `src/log.cc`, and who
gets an event.

The manager finds a logger by its name and never drops one, so a
`shared_ptr<Logger>` is the name; appenders live in a list and their
pointers are positions in it. `none` is a call through a null pointer.
What `log` does is the list of the calls `appender->log(logger, ..)` it
makes; the call of the root's `log` is a recursion, which the first
argument bounds. How an appender formats and writes is left out.

`delivered_iff` says when an event reaches the appenders it should: the
logger's own ones or, where there are none, those of the root. The test
for an empty list stands inside the loop over that list, so a logger
without appenders delivers nothing, and this is the only case that is
wrong.
-/
import TinyTcp.Log.Formatter
import TinyTcp.Lib.Run
import Mathlib.Logic.Function.Basic

namespace TinyTcp.Log

open TinyTcp.Lib

/-! ## Objects -/

/-- `LogLevel::Level` -/
inductive LogLevel where
  | unknow
  | debug
  | info
  | warn
  | error
  | fatal
  | never
  deriving DecidableEq

/-- The value of the enumeration. -/
def LogLevel.code : LogLevel → Nat
  | unknow => 0
  | debug => 1
  | info => 2
  | warn => 3
  | error => 4
  | fatal => 5
  | never => 100

inductive AppenderType where
  | file (filename : Str)
  | stdout
  deriving DecidableEq

structure LogAppender where
  type : AppenderType
  level : LogLevel
  formatter : Option LogFormatter
  deriving DecidableEq

abbrev AppenderPtr := Nat

/-- `root` is `m_root`, by name. -/
structure Logger where
  name : Str
  level : LogLevel
  appender : List AppenderPtr
  formatter : LogFormatter
  root : Option Str
  deriving DecidableEq

def Logger.create (name : Str) : Logger where
  name := name
  level := .debug
  appender := []
  formatter := .create defaultPattern
  root := none

structure LoggerManager where
  loggers : Str → Option Logger
  appenders : List LogAppender

/-- The name of the root. -/
def rootName : Str := str "root"

/-- A call of `LogAppender::log`, with the logger it gets. -/
structure Delivery where
  logger : Str
  appender : AppenderPtr
  deriving DecidableEq

namespace LoggerManager

/-! ## Operations -/

/-- The root after the constructor has added an appender for the console. -/
def rootLogger : Logger := { Logger.create rootName with appender := [0] }

/-- The constructor. -/
def create : LoggerManager where
  loggers := Function.update (fun _ => none) rootName (some rootLogger)
  appenders := [⟨.stdout, .debug, some (.create defaultPattern)⟩]

theorem create_root : create.loggers rootName = some rootLogger := by simp [create]

theorem create_other {name : Str} (h : name ≠ rootName) : create.loggers name = none := by
  simp [create, h]

variable (m : LoggerManager)

def put (name : Str) (logger : Logger) : LoggerManager :=
  { m with loggers := Function.update m.loggers name (some logger) }

@[simp] theorem put_self (name : Str) (logger : Logger) :
    (m.put name logger).loggers name = some logger := Function.update_self ..

theorem put_of_ne {name other : Str} (logger : Logger) (h : other ≠ name) :
    (m.put name logger).loggers other = m.loggers other := Function.update_of_ne h ..

@[simp] theorem put_appenders (name : Str) (logger : Logger) :
    (m.put name logger).appenders = m.appenders := rfl

/-- `get_logger`: the logger is there afterwards. -/
def getLogger (name : Str) : LoggerManager :=
  match m.loggers name with
  | some _ => m
  | none => m.put name { Logger.create name with root := some rootName }

/-- `new FileLogAppender` or `new StdoutLogAppender`. -/
def newAppender (type : AppenderType) : AppenderPtr × LoggerManager :=
  (m.appenders.length, { m with appenders := m.appenders ++ [⟨type, .debug, none⟩] })

/-- `LogAppender::set_level` -/
def setAppenderLevel (appender : AppenderPtr) (level : LogLevel) : Option LoggerManager :=
  match m.appenders[appender]? with
  | none => none
  | some a => some { m with appenders := m.appenders.set appender { a with level := level } }

/-- An appender without a formatter gets the logger's. -/
def addAppender (name : Str) (appender : AppenderPtr) : Option LoggerManager :=
  match m.loggers name, m.appenders[appender]? with
  | some logger, some a =>
      let a := if a.formatter.isNone then { a with formatter := some logger.formatter } else a
      let m := { m with appenders := m.appenders.set appender a }
      some (m.put name { logger with appender := logger.appender ++ [appender] })
  | _, _ => none

/-- The first entry of the list that is this appender goes. -/
def delAppender (name : Str) (appender : AppenderPtr) : Option LoggerManager :=
  (m.loggers name).map fun logger =>
    m.put name { logger with appender := logger.appender.erase appender }

def clearAppenders (name : Str) : Option LoggerManager :=
  (m.loggers name).map fun logger => m.put name { logger with appender := [] }

def setLevel (name : Str) (level : LogLevel) : Option LoggerManager :=
  (m.loggers name).map fun logger => m.put name { logger with level := level }

/-- `set_formatter(const std::string&)`: a pattern with an error is refused. -/
def setFormatter (name : Str) (val : Str) : Option LoggerManager :=
  (m.loggers name).map fun logger =>
    let newVal := LogFormatter.create val
    if newVal.error then m else m.put name { logger with formatter := newVal }

/-- `Logger::log` -/
def log : Nat → Str → LogLevel → Option (List Delivery)
  | 0, _, _ => none
  | fuel + 1, name, level =>
      match m.loggers name with
      | none => none
      | some logger =>
          if logger.level.code ≤ level.code then
            (logger.appender.mapM fun i =>
              if logger.appender ≠ [] then some [⟨name, i⟩]
              else
                match logger.root with
                | some root => log fuel root level
                | none => some []).map List.flatten
          else some []

/-! ## Runs -/

inductive Op where
  | getLogger (name : Str)
  | newAppender (type : AppenderType)
  | addAppender (name : Str) (appender : AppenderPtr)
  | delAppender (name : Str) (appender : AppenderPtr)
  | clearAppenders (name : Str)
  | setLevel (name : Str) (level : LogLevel)
  | setFormatter (name : Str) (val : Str)
  deriving DecidableEq

/-- One operation, through pointers that `get_logger` and `new` have returned. -/
def step (m : LoggerManager) : Op → Option LoggerManager
  | .getLogger name => some (m.getLogger name)
  | .newAppender type => some (m.newAppender type).2
  | .addAppender name appender => m.addAppender name appender
  | .delAppender name appender => m.delAppender name appender
  | .clearAppenders name => m.clearAppenders name
  | .setLevel name level => m.setLevel name level
  | .setFormatter name val => m.setFormatter name val

/-- The root is there and has no root, every other logger has this one. -/
structure Rooted (m : LoggerManager) : Prop where
  root : ∃ r, m.loggers rootName = some r ∧ r.root = none
  other : ∀ name logger, m.loggers name = some logger → name ≠ rootName → logger.root = some rootName

variable {m m' : LoggerManager} {name : Str} {logger : Logger}

theorem create_rooted : create.Rooted where
  root := ⟨rootLogger, create_root, rfl⟩
  other := by
    intro name logger h hne
    rw [create_other hne] at h
    cases h

/-- A logger changes, but not its root. -/
theorem Rooted.put (h : m.Rooted) {m₁ : LoggerManager} (hsame : m₁.loggers = m.loggers)
    (hl : m.loggers name = some logger) {logger' : Logger} (hroot : logger'.root = logger.root) :
    (m₁.put name logger').Rooted := by
  rw [← hsame] at hl
  obtain ⟨⟨r, hr, hnone⟩, hother⟩ := h
  rw [← hsame] at hr hother
  constructor
  · by_cases hname : name = rootName
    · subst hname
      rw [hl] at hr
      cases hr
      exact ⟨logger', put_self .., hroot.trans hnone⟩
    · exact ⟨r, (put_of_ne _ _ (Ne.symm hname)).trans hr, hnone⟩
  · intro other l hl' hne
    by_cases hname : other = name
    · subst hname
      cases (put_self ..).symm.trans hl'
      exact hroot.trans (hother _ _ hl hne)
    · exact hother other l ((put_of_ne _ _ hname).symm.trans hl') hne

theorem Rooted.getLogger (h : m.Rooted) (name : Str) : (m.getLogger name).Rooted := by
  unfold LoggerManager.getLogger
  cases hl : m.loggers name with
  | some logger => exact h
  | none =>
    obtain ⟨⟨r, hr, hnone⟩, hother⟩ := h
    have hne : rootName ≠ name := by
      rintro rfl
      rw [hl] at hr
      cases hr
    refine ⟨⟨r, (put_of_ne _ _ hne).trans hr, hnone⟩, ?_⟩
    intro other l hl' hother'
    by_cases hname : other = name
    · subst hname
      cases (put_self ..).symm.trans hl'
      rfl
    · exact hother other l ((put_of_ne _ _ hname).symm.trans hl') hother'

theorem Rooted.step (h : m.Rooted) {op : Op} (hstep : m.step op = some m') : m'.Rooted := by
  cases op with
  | getLogger name =>
    cases hstep
    exact h.getLogger name
  | newAppender type =>
    cases hstep
    exact ⟨h.root, h.other⟩
  | addAppender name appender =>
    simp only [LoggerManager.step, LoggerManager.addAppender] at hstep
    split at hstep
    · rename_i logger a hl ha
      cases hstep
      refine h.put ?_ hl ?_
      · rfl
      · rfl
    · cases hstep
  | delAppender name appender =>
    obtain ⟨logger, hl, rfl⟩ := Option.map_eq_some_iff.mp hstep
    exact h.put rfl hl rfl
  | clearAppenders name =>
    obtain ⟨logger, hl, rfl⟩ := Option.map_eq_some_iff.mp hstep
    exact h.put rfl hl rfl
  | setLevel name level =>
    obtain ⟨logger, hl, rfl⟩ := Option.map_eq_some_iff.mp hstep
    exact h.put rfl hl rfl
  | setFormatter name val =>
    obtain ⟨logger, hl, rfl⟩ := Option.map_eq_some_iff.mp hstep
    dsimp only
    split
    · exact h
    · exact h.put rfl hl rfl

theorem run_rooted {ops : List Op} (hrun : run LoggerManager.step create ops = some m) : m.Rooted :=
  run_induction (fun _ _ _ h _ hstep => h.step hstep) ops create m create_rooted
    (along_of_forall (p := fun _ => True) (fun _ _ => trivial) create) hrun

/-! ## Who gets an event -/

/-- Who should get an event: the logger's own appenders, each entry of the
list once, or else those of the root, if the level is high enough. -/
def expected (m : LoggerManager) (name : Str) (level : LogLevel) : List Delivery :=
  match m.loggers name, m.loggers rootName with
  | some logger, some root =>
      if level.code < logger.level.code then []
      else if logger.appender ≠ [] then logger.appender.map fun i => ⟨name, i⟩
      else if name = rootName ∨ level.code < root.level.code then []
      else root.appender.map fun i => ⟨rootName, i⟩
  | _, _ => []

/-- A logger without appenders passes on nothing, although the root would write it. -/
def Unheard (m : LoggerManager) (name : Str) (level : LogLevel) : Prop :=
  ∃ logger root, m.loggers name = some logger ∧ m.loggers rootName = some root ∧
    logger.root = some rootName ∧ logger.appender = [] ∧ root.appender ≠ [] ∧
    logger.level.code ≤ level.code ∧ root.level.code ≤ level.code

/-- The loop passes the event to the appenders of the list; the other
branch is never taken. -/
theorem log_eq (m : LoggerManager) {name : Str} {logger : Logger} (hl : m.loggers name = some logger)
    (fuel : Nat) (level : LogLevel) :
    m.log (fuel + 1) name level =
      some (if logger.level.code ≤ level.code then logger.appender.map (⟨name, ·⟩) else []) := by
  rw [log, hl]
  dsimp only
  by_cases hlevel : logger.level.code ≤ level.code
  · rw [if_pos hlevel, if_pos hlevel]
    by_cases hempty : logger.appender = []
    · rw [hempty]
      rfl
    · have hloop : (logger.appender.mapM fun i => (some [⟨name, i⟩] : Option (List Delivery))) =
          some (logger.appender.map fun i => [⟨name, i⟩]) := List.mapM_pure
      simp only [ne_eq, hempty, not_false_eq_true, if_true]
      rw [hloop, Option.map_some, ← List.flatMap_def, ← List.map_eq_flatMap]
  · rw [if_neg hlevel, if_neg hlevel]

theorem expected_eq {root : Logger} (hl : m.loggers name = some logger)
    (hr : m.loggers rootName = some root) (level : LogLevel) :
    m.expected name level =
      if level.code < logger.level.code then []
      else if logger.appender ≠ [] then logger.appender.map (⟨name, ·⟩)
      else if name = rootName ∨ level.code < root.level.code then []
      else root.appender.map (⟨rootName, ·⟩) := by
  rw [expected, hl, hr]

theorem unheard_iff {root : Logger} (hl : m.loggers name = some logger)
    (hr : m.loggers rootName = some root) (level : LogLevel) :
    m.Unheard name level ↔ logger.root = some rootName ∧ logger.appender = [] ∧
      root.appender ≠ [] ∧ logger.level.code ≤ level.code ∧ root.level.code ≤ level.code := by
  constructor
  · rintro ⟨logger', root', hl', hr', h⟩
    cases hl.symm.trans hl'
    cases hr.symm.trans hr'
    exact h
  · exact fun h => ⟨logger, root, hl, hr, h⟩

/-- All loggers but the root have the root to fall back on. -/
theorem Rooted.root_iff (h : m.Rooted) (hl : m.loggers name = some logger) :
    logger.root = some rootName ↔ name ≠ rootName := by
  constructor
  · rintro hroot rfl
    obtain ⟨r, hr, hnone⟩ := h.root
    cases hl.symm.trans hr
    rw [hnone] at hroot
    cases hroot
  · exact h.other name logger hl

/-- **Delivery.** After every run of operations on a manager, for every
logger of it and every level, an event reaches the appenders it should
exactly if it is not the root that should write it. -/
theorem delivered_iff (ops : List Op) (m : LoggerManager)
    (hrun : run LoggerManager.step create ops = some m) (name : Str) (logger : Logger)
    (hl : m.loggers name = some logger) (level : LogLevel) (fuel : Nat) :
    m.log (fuel + 1) name level = some (m.expected name level) ↔ ¬ m.Unheard name level := by
  have hrooted := run_rooted hrun
  obtain ⟨root, hr, -⟩ := hrooted.root
  rw [log_eq m hl, expected_eq hl hr, unheard_iff hl hr, hrooted.root_iff hl, Option.some.injEq]
  by_cases hlevel : logger.level.code ≤ level.code
  · rw [if_pos hlevel, if_neg (Nat.not_lt.mpr hlevel)]
    by_cases hempty : logger.appender = []
    · rw [if_neg (not_not.mpr hempty), hempty, List.map_nil]
      by_cases hown : name = rootName ∨ level.code < root.level.code
      · rw [if_pos hown]
        refine iff_of_true rfl ?_
        rintro ⟨hname, -, -, -, hroot⟩
        rcases hown with h | h
        · exact hname h
        · omega
      · rw [if_neg hown]
        rw [not_or, Nat.not_lt] at hown
        constructor
        · intro heq hunheard
          exact hunheard.2.2.1 (List.map_eq_nil_iff.mp heq.symm)
        · intro hheard
          by_contra hne
          exact hheard ⟨hown.1, rfl, fun h => hne (by rw [h]; rfl), hlevel, hown.2⟩
    · rw [if_pos hempty]
      exact iff_of_true rfl fun h => hempty h.2.1
  · rw [if_neg hlevel, if_pos (Nat.not_le.mp hlevel)]
    exact iff_of_true rfl fun h => hlevel h.2.2.2.1

/-- A logger, as `get_logger` makes it. -/
def newLogger : List Op := [.getLogger (str "system")]

/-- It gets an appender of its own. -/
def ownAppender : List Op :=
  newLogger ++ [.newAppender (.file (str "log.txt")), .addAppender (str "system") 1]

theorem delivered_ownAppender :
    ∃ m, run LoggerManager.step create ownAppender = some m ∧
      m.log 1 (str "system") .warn = some (m.expected (str "system") .warn) := by
  have hrun : (run LoggerManager.step create ownAppender).map
      (fun m => (m.loggers (str "system")).map Logger.appender) = some (some [1]) := by decide
  obtain ⟨m, hm, hfacts⟩ := Option.map_eq_some_iff.mp hrun
  obtain ⟨logger, hl, happender⟩ := Option.map_eq_some_iff.mp hfacts
  refine ⟨m, hm, (delivered_iff ownAppender m hm (str "system") logger hl .warn 0).mpr ?_⟩
  rintro ⟨logger', root, hl', -, -, hempty, -⟩
  cases hl.symm.trans hl'
  rw [happender] at hempty
  cases hempty

/-- Nothing reaches the console of the root through a new logger. -/
theorem not_delivered_newLogger :
    ∃ m, run LoggerManager.step create newLogger = some m ∧
      m.log 2 (str "system") .error = some [] ∧
      m.expected (str "system") .error = [⟨rootName, 0⟩] := by
  have hrun : (run LoggerManager.step create newLogger).map
      (fun m => ((m.loggers (str "system")).map (fun l => (l.appender, l.level)),
        (m.loggers rootName).map (fun l => (l.appender, l.level)))) =
      some (some ([], .debug), some ([0], .debug)) := by decide
  obtain ⟨m, hm, hfacts⟩ := Option.map_eq_some_iff.mp hrun
  rw [Prod.mk.injEq] at hfacts
  obtain ⟨logger, hl, hlogger⟩ := Option.map_eq_some_iff.mp hfacts.1
  obtain ⟨root, hr, hroot⟩ := Option.map_eq_some_iff.mp hfacts.2
  rw [Prod.mk.injEq] at hlogger hroot
  refine ⟨m, hm, ?_, ?_⟩
  · rw [log_eq m hl, hlogger.1, hlogger.2]
    rfl
  · rw [expected_eq hl hr, hlogger.1, hlogger.2, hroot.1, hroot.2]
    decide

end LoggerManager

end TinyTcp.Log
