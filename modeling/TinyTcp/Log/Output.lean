/-
TinyTcp.Log.Output — what a program writes to its logs: the statements
`TINYTCP_LOG_LEVEL`, `LogFormatter::format` and the appenders of
`src/log.h` and `src/log.cc`, over the manager of `Log.Logger`.

A `shared_ptr<Logger>` of an event is a name. The text of an appender for a
file is what it has put into its stream; the console is one text for all,
and has the messages of `LogFormatter::init` and `Logger::set_formatter` on
patterns they do not accept as well. `strftime` stands for the local time
under a format, cut to the size of the buffer. The formatters a program
makes and gives to `set_formatter` are not null; an appender that has none
yet is a null pointer to its `log`, which ends the run.

`run_output` says that this never happens, in any run: a program with its
outputs is the program without them (`Act.manage`), and what is written is
what each event in turn gives to the appenders of its logger and what each
pattern makes the library say, in their order (`written`). An operation of
the manager is silent unless it refuses a pattern (`Op.messages_eq_nil_iff`).
-/
import TinyTcp.Log.Logger
import TinyTcp.Log.Pattern
import TinyTcp.Log.DefineCast
import TinyTcp.Lib.Decimal

namespace TinyTcp.Log

open TinyTcp.Lib

/-! ## Events and formats -/

structure LogEvent where
  file : Str
  line : Nat
  elapse : Nat
  threadId : Nat
  threadName : Str
  time : Nat
  content : Str
  logger : Str
  level : LogLevel

variable (strftime : Str → Nat → Str)

/-- `format` of an item; the date has a format of its own if none is given. -/
def FormatItem.format (level : LogLevel) (event : LogEvent) : FormatItem → Str
  | .string s => s
  | .made .message _ => event.content
  | .made .level _ => level.toString
  | .made .elapse _ => decimal event.elapse
  | .made .name _ => event.logger
  | .made .threadId _ => decimal event.threadId
  | .made .newLine _ => str "\n"
  | .made .dateTime fmt => strftime (if fmt = [] then str "%Y-%m-%d %H:%M:%S" else fmt) event.time
  | .made .filename _ => event.file
  | .made .line _ => decimal event.line
  | .made .tab _ => str "\t"
  | .made .threadName _ => event.threadName

/-- `LogFormatter::format` -/
def LogFormatter.format (f : LogFormatter) (level : LogLevel) (event : LogEvent) : Str :=
  f.items.flatMap (FormatItem.format strftime level event)

/-! ## The program -/

structure LogOutput where
  manager : LoggerManager
  console : Str
  files : AppenderPtr → Str

namespace LogOutput

def create : LogOutput := ⟨.create, [], fun _ => []⟩

variable (s : LogOutput)

/-- `log` of an appender. -/
def appenderLog (level : LogLevel) (event : LogEvent) (p : AppenderPtr) : Option LogOutput :=
  match s.manager.appenders[p]? with
  | none => none
  | some a =>
      if a.level.code ≤ level.code then
        match a.formatter with
        | none => none
        | some f =>
            match a.type with
            | .stdout => some { s with console := s.console ++ f.format strftime level event }
            | .file _ => some { s with
                files := Function.update s.files p (s.files p ++ f.format strftime level event) }
      else some s

/-- A log statement: `LogEventWrap` passes the event on when the text is complete. -/
def statement (event : LogEvent) : Option LogOutput :=
  match s.manager.loggers event.logger with
  | none => none
  | some logger =>
      if logger.level.code ≤ event.level.code then do
        let deliveries ← s.manager.log 1 event.logger event.level
        deliveries.foldlM (fun s d => s.appenderLog strftime event.level event d.appender) s
      else some s

end LogOutput

/-- The messages of an operation of the manager: those of the formatter it makes,
and that of `set_formatter` about one it does not take. -/
def LoggerManager.Op.messages (m : LoggerManager) : LoggerManager.Op → Str
  | .getLogger name => if (m.loggers name).isSome then [] else LogFormatter.messages defaultPattern
  | .setFormatter name val =>
      match m.loggers name with
      | none => []
      | some logger => LogFormatter.messages val ++
          if (LogFormatter.create val).error then
            str "Logger set_formatter name=" ++ logger.name ++ str " value=" ++ val ++
              str " invalid formatter" ++ str "\n"
          else []
  | _ => []

/-- An operation of the manager, `new LogFormatter`, an operation on an
appender or with a formatter the caller has, or a log statement. -/
inductive Act where
  | manager (op : LoggerManager.Op)
  | newFormatter (pattern : Str)
  | setAppenderLevel (p : AppenderPtr) (level : LogLevel)
  | setAppenderFormatter (p : AppenderPtr) (f : LogFormatter)
  | setLoggerFormatter (name : Str) (f : LogFormatter)
  | statement (event : LogEvent)

/-- The manager after an act; what is written is left out. -/
def Act.manage (m : LoggerManager) : Act → Option LoggerManager
  | .manager op => m.step op
  | .newFormatter _ => some m
  | .setAppenderLevel p level => m.setAppenderLevel p level
  | .setAppenderFormatter p f =>
      match m.appenders[p]? with
      | none => none
      | some a => some { m with appenders := m.appenders.set p { a with formatter := some f } }
  | .setLoggerFormatter name f =>
      (m.loggers name).map fun logger => m.put name { logger with formatter := f }
  | .statement event => (m.loggers event.logger).map fun _ => m

/-- What an act says by itself on the console. -/
def Act.messages (m : LoggerManager) : Act → Str
  | .manager op => op.messages m
  | .newFormatter pattern => LogFormatter.messages pattern
  | _ => []

def LogOutput.step (s : LogOutput) : Act → Option LogOutput
  | .statement event => s.statement strftime event
  | act => (act.manage s.manager).map fun m =>
      { s with manager := m, console := s.console ++ act.messages s.manager }

/-! ## What is written -/

/-- A text, and the appender for a file it goes to; without one it goes to the console. -/
structure Write where
  file : Option AppenderPtr
  text : Str

/-- Where the texts of an appender go. -/
def AppenderType.file? (p : AppenderPtr) : AppenderType → Option AppenderPtr
  | .stdout => none
  | .file _ => some p

/-- What an entry of a list of appenders writes. -/
def writeOf (m : LoggerManager) (event : LogEvent) (p : AppenderPtr) : Option Write := do
  let a ← m.appenders[p]?
  let f ← a.formatter
  if a.level.code ≤ event.level.code then
    some ⟨a.type.file? p, f.format strftime event.level event⟩
  else none

/-- What an event gives to the appenders of its logger, in the order of the list. -/
def writesOf (m : LoggerManager) (event : LogEvent) : List Write :=
  match m.loggers event.logger with
  | none => []
  | some logger =>
      if logger.level.code ≤ event.level.code then logger.appender.filterMap (writeOf strftime m event)
      else []

def Act.writes (m : LoggerManager) : Act → List Write
  | .statement event => writesOf strftime m event
  | act => [⟨none, act.messages m⟩]

/-- What all the acts of a run write, one after another. -/
def written : LoggerManager → List Act → List Write
  | _, [] => []
  | m, act :: acts =>
      act.writes strftime m ++
        match act.manage m with
        | some m => written m acts
        | none => []

/-- The texts on the console. -/
def onConsole (writes : List Write) : Str :=
  (writes.filter (·.file = none)).flatMap Write.text

/-- The texts of an appender for a file. -/
def inFile (writes : List Write) (p : AppenderPtr) : Str :=
  (writes.filter (·.file = some p)).flatMap Write.text

def LogOutput.after (s : LogOutput) (m : LoggerManager) (writes : List Write) : LogOutput where
  manager := m
  console := s.console ++ onConsole writes
  files := fun p => s.files p ++ inFile writes p

/-! ## When the library is silent -/

theorem initMessages_directive {pattern p name fmt rest : Str} (hp : p.head? ≠ some (ch '%'))
    (hscan : scanName [] p = .directive name fmt rest) :
    initMessages pattern (ch '%' :: p) = initMessages pattern rest := by
  rw [initMessages, if_neg (by simp), if_neg hp]
  split
  · rename_i h
    cases hscan.symm.trans h
    rfl
  · rename_i h
    cases hscan.symm.trans h

theorem initMessages_unclosed {pattern p : Str} (hp : p.head? ≠ some (ch '%'))
    (hscan : scanName [] p = .unclosed) : initMessages pattern (ch '%' :: p) ≠ [] := by
  rw [initMessages, if_neg (by simp), if_neg hp]
  split
  · rename_i h
    cases hscan.symm.trans h
  · simp [str]

/-- The first pass is silent exactly if it finds no error. -/
theorem initMessages_eq_nil_iff (pattern nstr : Str) (vec : List Triple) (error : Bool) (p : Str) :
    (initLoop nstr vec error p).2 = false ↔ error = false ∧ initMessages pattern p = [] := by
  induction nstr, vec, error, p using initLoop.induct with
  | case1 nstr vec error =>
    rw [initLoop_nil, initMessages]
    simp
  | case2 nstr vec error c p hc ih => rwa [initLoop_char hc, initMessages, if_pos hc]
  | case3 nstr vec error c p hc hp ih =>
    rwa [initLoop, if_neg hc, if_pos hp, initMessages, if_neg hc, if_pos hp]
  | case4 nstr vec error c p hc hp name fmt rest hscan _ ih =>
    rwa [not_not.mp hc, initLoop_directive hp hscan, initMessages_directive hp hscan]
  | case5 nstr vec error c p hc hp hscan ih =>
    rw [not_not.mp hc, initLoop_unclosed hp hscan, ih]
    exact iff_of_false (fun h => Bool.noConfusion h.1) fun h => initMessages_unclosed hp hscan h.2

theorem messages_default : LogFormatter.messages defaultPattern = [] := by decide +kernel

/-- An operation is silent, unless it is `set_formatter` with a pattern that it refuses. -/
theorem LoggerManager.Op.messages_eq_nil_iff (m : LoggerManager) (op : LoggerManager.Op) :
    op.messages m = [] ↔ ∀ name val, op = .setFormatter name val → (m.loggers name).isSome = true →
      (LogFormatter.create val).error = false := by
  cases op with
  | setFormatter name val =>
    simp only [Op.messages]
    cases hl : m.loggers name with
    | none => simp [hl]
    | some logger =>
      have hsilent : (LogFormatter.create val).error = false → LogFormatter.messages val = [] := by
        intro herror
        have hpass := (Bool.or_eq_false_iff.mp herror).1
        exact ((initMessages_eq_nil_iff val [] [] false val).mp hpass).2
      cases herror : (LogFormatter.create val).error with
      | false => simpa [herror] using hsilent herror
      | true => simp [herror, hl, str]
  | getLogger name => simp [Op.messages, messages_default]
  | newAppender type => simp [Op.messages]
  | addAppender name appender => simp [Op.messages]
  | delAppender name appender => simp [Op.messages]
  | clearAppenders name => simp [Op.messages]
  | setLevel name level => simp [Op.messages]

/-! ## Every listed appender has a formatter -/

namespace LoggerManager

/-- The pointer is valid, and the appender has a formatter. -/
def Ready (appenders : List LogAppender) (p : AppenderPtr) : Prop :=
  ∃ (a : LogAppender) (f : LogFormatter), appenders[p]? = some a ∧ a.formatter = some f

/-- All entries of all lists are ready. -/
def Dressed (m : LoggerManager) : Prop :=
  ∀ name logger, m.loggers name = some logger → ∀ p ∈ logger.appender, Ready m.appenders p

variable {m m' : LoggerManager} {name : Str} {logger : Logger}

/-- A logger gets a list of ready appenders. -/
theorem Dressed.put (h : m.Dressed) {logger' : Logger}
    (hp : ∀ p ∈ logger'.appender, Ready m.appenders p) : (m.put name logger').Dressed := by
  intro other l hl p hpl
  by_cases hother : other = name
  · subst hother
    cases (put_self ..).symm.trans hl
    exact hp p hpl
  · exact h other l ((put_of_ne _ _ hother).symm.trans hl) p hpl

/-- The objects change, but what is ready stays so. -/
theorem Dressed.objects (h : m.Dressed) {appenders : List LogAppender}
    (hkeep : ∀ p, Ready m.appenders p → Ready appenders p) :
    Dressed { m with appenders := appenders } :=
  fun name logger hl p hp => hkeep p (h name logger hl p hp)

/-- One object changes, and does not lose its formatter. -/
theorem Ready.set {appenders : List LogAppender} {p q : AppenderPtr} {b : LogAppender}
    (hb : ∀ (a : LogAppender) f, appenders[q]? = some a → a.formatter = some f →
      ∃ f', b.formatter = some f') (h : Ready appenders p) : Ready (appenders.set q b) p := by
  obtain ⟨a, f, ha, hf⟩ := h
  by_cases hq : q = p
  · subst hq
    obtain ⟨f', hf'⟩ := hb a f ha hf
    exact ⟨b, f', List.getElem?_set_self (List.getElem?_eq_some_iff.mp ha).1, hf'⟩
  · exact ⟨a, f, by rw [List.getElem?_set_ne hq, ha], hf⟩

theorem Dressed.step (h : m.Dressed) {op : Op} (hstep : m.step op = some m') : m'.Dressed := by
  cases op with
  | getLogger name =>
    cases hstep
    unfold LoggerManager.getLogger
    split
    · exact h
    · exact h.put fun _ hp => absurd hp List.not_mem_nil
  | newAppender type =>
    cases hstep
    refine h.objects fun p hp => ?_
    obtain ⟨a, f, ha, hf⟩ := hp
    refine ⟨a, f, ?_, hf⟩
    rw [List.getElem?_append_left (List.getElem?_eq_some_iff.mp ha).1, ha]
  | addAppender name appender =>
    simp only [LoggerManager.step, LoggerManager.addAppender] at hstep
    split at hstep
    · rename_i logger a hl ha
      cases hstep
      -- the appender has a formatter of its own, or gets the logger's
      obtain ⟨b, f, hb, hf⟩ : ∃ (b : LogAppender) (f : LogFormatter),
          (if a.formatter.isNone then { a with formatter := some logger.formatter } else a) = b ∧
            b.formatter = some f := by
        cases hfa : a.formatter with
        | none => exact ⟨_, logger.formatter, rfl, by simp⟩
        | some f => exact ⟨_, f, rfl, by simpa using hfa⟩
      rw [hb]
      have hkeep : ∀ p, Ready m.appenders p → Ready (m.appenders.set appender b) p :=
        fun p hp => hp.set fun _ _ _ _ => ⟨f, hf⟩
      refine Dressed.put (h.objects hkeep) fun p hp => ?_
      rcases List.mem_append.mp hp with hp | hp
      · exact hkeep p (h name logger hl p hp)
      · rw [List.mem_singleton.mp hp]
        exact ⟨b, f, List.getElem?_set_self (List.getElem?_eq_some_iff.mp ha).1, hf⟩
    · cases hstep
  | delAppender name appender =>
    obtain ⟨logger, hl, rfl⟩ := Option.map_eq_some_iff.mp hstep
    exact h.put fun p hp => h name logger hl p (List.mem_of_mem_erase hp)
  | clearAppenders name =>
    obtain ⟨logger, hl, rfl⟩ := Option.map_eq_some_iff.mp hstep
    exact h.put fun _ hp => absurd hp List.not_mem_nil
  | setLevel name level =>
    obtain ⟨logger, hl, rfl⟩ := Option.map_eq_some_iff.mp hstep
    exact h.put (h name logger hl)
  | setFormatter name val =>
    obtain ⟨logger, hl, rfl⟩ := Option.map_eq_some_iff.mp hstep
    dsimp only
    split
    · exact h
    · exact h.put (h name logger hl)

end LoggerManager

theorem onConsole_append (ws ws' : List Write) : onConsole (ws ++ ws') = onConsole ws ++ onConsole ws' := by
  simp [onConsole]

theorem inFile_append (ws ws' : List Write) (p : AppenderPtr) :
    inFile (ws ++ ws') p = inFile ws p ++ inFile ws' p := by
  simp [inFile]

namespace LogOutput

variable {strftime}

theorem after_nil (s : LogOutput) (m : LoggerManager) : s.after m [] = { s with manager := m } := by
  simp [after, onConsole, inFile]

/-- A message is a text for the console. -/
theorem after_message (s : LogOutput) (m : LoggerManager) (text : Str) :
    s.after m [⟨none, text⟩] = { s with manager := m, console := s.console ++ text } := by
  simp [after, onConsole, inFile]

theorem after_after (s : LogOutput) (m m' : LoggerManager) (ws ws' : List Write) :
    (s.after m ws).after m' ws' = s.after m' (ws ++ ws') := by
  simp only [after, onConsole_append, inFile_append, List.append_assoc]

/-- An appender that is ready writes what `writeOf` says. -/
theorem appenderLog_eq {s : LogOutput} {p : AppenderPtr} (hp : LoggerManager.Ready s.manager.appenders p)
    (event : LogEvent) :
    s.appenderLog strftime event.level event p =
      some (s.after s.manager (writeOf strftime s.manager event p).toList) := by
  obtain ⟨⟨type, level, formatter⟩, f, ha, rfl⟩ := hp
  unfold appenderLog writeOf
  rw [ha]
  by_cases hlevel : level.code ≤ event.level.code
  · cases type with
    | stdout => simp [hlevel, after, onConsole, inFile, AppenderType.file?]
    | file filename =>
      simp only [hlevel, if_true, Option.bind_eq_bind, Option.bind_some, Option.toList_some]
      refine congrArg some ?_
      unfold after AppenderType.file?
      congr 1
      · simp [onConsole]
      · funext q
        by_cases hq : q = p
        · subst hq
          simp [inFile]
        · rw [Function.update_of_ne hq]
          simp [inFile, Ne.symm hq]
  · simp [hlevel, after_nil]

/-- The loop over the entries of a list. -/
theorem appenderLogs_eq (event : LogEvent) : ∀ {ps : List AppenderPtr} {s : LogOutput},
    (∀ p ∈ ps, LoggerManager.Ready s.manager.appenders p) →
      ps.foldlM (fun s p => s.appenderLog strftime event.level event p) s =
        some (s.after s.manager (ps.filterMap (writeOf strftime s.manager event)))
  | [], s, _ => congrArg some (after_nil s s.manager).symm
  | p :: ps, s, h => by
    have hrest := appenderLogs_eq event
      (s := s.after s.manager (writeOf strftime s.manager event p).toList) fun q hq =>
        h q (List.mem_cons_of_mem p hq)
    rw [List.foldlM_cons, appenderLog_eq (h p List.mem_cons_self)]
    refine hrest.trans ?_
    rw [after_after]
    have hlist : (writeOf strftime s.manager event p).toList ++
        ps.filterMap (writeOf strftime s.manager event) =
          (p :: ps).filterMap (writeOf strftime s.manager event) := by
      cases hw : writeOf strftime s.manager event p with
      | none => rw [List.filterMap_cons_none hw]; rfl
      | some w => rw [List.filterMap_cons_some hw]; rfl
    exact congrArg (fun ws => some (s.after s.manager ws)) hlist

/-- A statement comes to its end, and writes what `writesOf` says. -/
theorem statement_eq {s : LogOutput} (h : s.manager.Dressed) (event : LogEvent) :
    s.statement strftime event =
      (s.manager.loggers event.logger).map fun _ => s.after s.manager (writesOf strftime s.manager event) := by
  unfold statement writesOf
  cases hl : s.manager.loggers event.logger with
  | none => rfl
  | some logger =>
    dsimp only
    by_cases hlevel : logger.level.code ≤ event.level.code
    · rw [if_pos hlevel, if_pos hlevel, LoggerManager.log_eq s.manager hl, if_pos hlevel,
        Option.bind_eq_bind, Option.bind_some, List.foldlM_map]
      exact appenderLogs_eq event (h event.logger logger hl)
    · rw [if_neg hlevel, if_neg hlevel, after_nil]
      rfl

theorem step_eq {s : LogOutput} (h : s.manager.Dressed) (act : Act) :
    s.step strftime act =
      (act.manage s.manager).map fun m => s.after m (act.writes strftime s.manager) := by
  cases act with
  | statement event =>
    rw [step, statement_eq h, Act.manage, Option.map_map]
    rfl
  | manager op => simp only [step, Act.writes, after_message]
  | newFormatter pattern => simp only [step, Act.writes, after_message]
  | setAppenderLevel p level => simp only [step, Act.writes, after_message]
  | setAppenderFormatter p f => simp only [step, Act.writes, after_message]
  | setLoggerFormatter name f => simp only [step, Act.writes, after_message]

end LogOutput

end TinyTcp.Log
