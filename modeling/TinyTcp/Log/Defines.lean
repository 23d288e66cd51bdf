/-
TinyTcp.Log.Defines — the listener of the configuration variable `logs`,
which makes the loggers of `src/log.cc` follow a new set of definitions.

A `std::set<LogDefine>` is keyed by name while definitions are equal if
all their fields are. The listener looks up each new definition in the old
set: for an added or a changed one it asks the manager for the logger, for
an unchanged one it keeps a null pointer, and goes on with either. The
formatter of an appender definition is never used: every appender gets its
logger's.

`applied_iff` says when the listener does what a configuration asks for:
exactly if no new definition is equal to its old one, every appender has
one of the two types, and no appender asks for a formatter that differs
from its logger's.
-/
import TinyTcp.Log.Logger
import TinyTcp.Lib.Loop
import TinyTcp.Config.ConfigVar
import Mathlib.Data.Fintype.EquivFin
import Mathlib.Data.List.Nodup

namespace TinyTcp.Log

open TinyTcp.Lib TinyTcp.Config

/-! ## Definitions -/

/-- `type` is 1 for a file and 2 for the console. -/
structure LogAppenderDefine where
  type : Int
  level : LogLevel
  formatter : Str
  file : Str
  deriving DecidableEq

structure LogDefine where
  name : Str
  level : LogLevel
  formatter : Str
  appenders : List LogAppenderDefine
  deriving DecidableEq

/-- `std::set<LogDefine>`, in the order of its traversal. -/
structure LogDefines where
  defs : List LogDefine
  distinct : (defs.map LogDefine.name).Nodup
  deriving DecidableEq

namespace LogDefines

/-- `find` compares names. -/
def find (s : LogDefines) (i : LogDefine) : Option LogDefine := s.defs.find? fun k => k.name = i.name

/-- The names of the set. -/
def names (s : LogDefines) : List Str := s.defs.map LogDefine.name

def empty : LogDefines := ⟨[], List.nodup_nil⟩

theorem find_eq_none_iff {s : LogDefines} {i : LogDefine} : s.find i = none ↔ i.name ∉ s.names := by
  simp [find, names]

/-- The definition found is the equal one, if the set has it. -/
theorem find_eq_some_self_iff {s : LogDefines} {i : LogDefine} : s.find i = some i ↔ i ∈ s.defs := by
  constructor
  · exact List.mem_of_find?_eq_some
  · intro hi
    cases hfind : s.find i with
    | none => exact absurd (List.mem_map_of_mem hi) (find_eq_none_iff.mp hfind)
    | some k =>
      have hk : k ∈ s.defs := List.mem_of_find?_eq_some hfind
      have hname : k.name = i.name := by simpa using List.find?_some hfind
      rw [List.inj_on_of_nodup_map s.distinct hk hi hname]

end LogDefines

/-! ## The listener -/

/-- The object that is made for a definition, `none` for a null pointer. -/
def LogAppenderDefine.kind (a : LogAppenderDefine) : Option AppenderType :=
  if a.type = 1 then some (.file a.file)
  else if a.type = 2 then some .stdout
  else none

namespace LoggerManager

/-- The body of the loop over the appenders. -/
def addDefined (name : Str) (m : LoggerManager) (a : LogAppenderDefine) : Option LoggerManager :=
  match a.kind with
  -- `ap` is null
  | none => none
  | some type => do
      let (ap, m) := m.newAppender type
      let m ← m.setAppenderLevel ap a.level
      m.addAppender name ap

/-- What is done to the logger of a new definition, in front of the loop. -/
def prepare (m : LoggerManager) (name : Str) (i : LogDefine) : Option LoggerManager := do
  let m ← m.setLevel name i.level
  let m ← if i.formatter = [] then some m else m.setFormatter name i.formatter
  m.clearAppenders name

/-- What is done to the logger of a new definition. -/
def configure (m : LoggerManager) (name : Str) (i : LogDefine) : Option LoggerManager := do
  let m ← m.prepare name i
  i.appenders.foldlM (addDefined name) m

/-- The body of the loop over the new set. -/
def onNew (old : LogDefines) (m : LoggerManager) (i : LogDefine) : Option LoggerManager :=
  let (logger, m) : Option Str × LoggerManager :=
    match old.find i with
    | none => (some i.name, m.getLogger i.name)
    | some it => if i ≠ it then (some i.name, m.getLogger i.name) else (none, m)
  match logger with
  -- an unchanged definition: the pointer is still null
  | none => none
  | some name => m.configure name i

/-- The body of the loop over the old set. -/
def onOld (new : LogDefines) (m : LoggerManager) (i : LogDefine) : Option LoggerManager :=
  match new.find i with
  | some _ => some m
  | none => do
      let m := m.getLogger i.name
      let m ← m.setLevel i.name .never
      m.clearAppenders i.name

/-- The listener; its log line to the root changes nothing here. -/
def onChange (old new : LogDefines) (m : LoggerManager) : Option LoggerManager := do
  let m ← new.defs.foldlM (onNew old) m
  old.defs.foldlM (onOld new) m

end LoggerManager

/-- `g_log_defines` with the listener that `LogIniter` adds. -/
def logDefines : ConfigVar LogDefines LoggerManager :=
  ConfigVar.addListener ⟨.empty, []⟩ 0 LoggerManager.onChange

/-! ## What a configuration asks for -/

/-- The formatter of an appender: its own if that is given and parses, or the logger's. -/
def LogAppenderDefine.asked (a : LogAppenderDefine) (ofLogger : LogFormatter) : LogFormatter :=
  if a.formatter ≠ [] ∧ (LogFormatter.create a.formatter).error = false then .create a.formatter
  else ofLogger

/-- What a set of definitions and its predecessor ask for: `m` is the
manager before, `m'` the one after. -/
structure Applied (old new : LogDefines) (m m' : LoggerManager) : Prop where
  /-- level and appenders, with kinds, files and formatters -/
  named : ∀ i ∈ new.defs, ∃ logger, m'.loggers i.name = some logger ∧ logger.level = i.level ∧
    logger.appender.map (fun p => (m'.appenders[p]?).map fun a => (a.type, a.formatter)) =
      i.appenders.map fun a => a.kind.map fun type => (type, some (a.asked logger.formatter))
  removed : ∀ i ∈ old.defs, i.name ∉ new.names →
    ∃ logger, m'.loggers i.name = some logger ∧ logger.level = .never ∧ logger.appender = []
  others : ∀ name, name ∉ new.names → name ∉ old.names → m'.loggers name = m.loggers name
  /-- the appenders that were there are as they were -/
  objects : ∀ p < m.appenders.length, m'.appenders[p]? = m.appenders[p]?

namespace LoggerManager

/-- The logger that a definition finds or makes. -/
def loggerOf (m : LoggerManager) (name : Str) : Logger :=
  (m.loggers name).getD { Logger.create name with root := some rootName }

/-- The formatter a logger has after `set_formatter` with the definition's, if that is given. -/
def formatterOf (m : LoggerManager) (i : LogDefine) : LogFormatter :=
  if i.formatter ≠ [] ∧ (LogFormatter.create i.formatter).error = false then .create i.formatter
  else (m.loggerOf i.name).formatter

end LoggerManager

/-- The listener can do what the definition asks for. -/
structure Fits (old : LogDefines) (m : LoggerManager) (i : LogDefine) : Prop where
  changed : i ∉ old.defs
  types : ∀ a ∈ i.appenders, a.type = 1 ∨ a.type = 2
  formatters : ∀ a ∈ i.appenders, a.formatter ≠ [] →
    (LogFormatter.create a.formatter).error = false → .create a.formatter = m.formatterOf i

namespace LoggerManager

variable {m m' : LoggerManager} {name : Str} {logger : Logger}

/-! ## One definition -/

theorem put_put (m : LoggerManager) (name : Str) (l l' : Logger) :
    (m.put name l).put name l' = m.put name l' := by
  simp [put]

theorem getLogger_self (m : LoggerManager) (name : Str) :
    (m.getLogger name).loggers name = some (m.loggerOf name) := by
  unfold getLogger loggerOf
  cases hl : m.loggers name with
  | some logger => exact hl
  | none => exact put_self ..

theorem getLogger_of_ne (m : LoggerManager) {other : Str} (h : other ≠ name) :
    (m.getLogger name).loggers other = m.loggers other := by
  unfold getLogger
  cases m.loggers name with
  | some logger => rfl
  | none => exact put_of_ne _ _ h

theorem getLogger_appenders (m : LoggerManager) (name : Str) :
    (m.getLogger name).appenders = m.appenders := by
  unfold getLogger
  cases m.loggers name <;> rfl

/-- Nothing has happened to a logger, and to the appenders there were. -/
def Same (name : Str) (m m' : LoggerManager) : Prop :=
  m'.loggers name = m.loggers name ∧ m.appenders <+: m'.appenders

theorem Same.refl (name : Str) (m : LoggerManager) : Same name m m := ⟨rfl, List.prefix_rfl⟩

theorem Same.trans {m'' : LoggerManager} (h : Same name m m') (h' : Same name m' m'') :
    Same name m m'' := ⟨h'.1.trans h.1, h.2.trans h'.2⟩

/-- The object for a definition under a logger with this formatter. -/
def object (fmt : LogFormatter) (a : LogAppenderDefine) : Option LogAppender :=
  a.kind.map fun type => ⟨type, a.level, some fmt⟩

theorem kind_isSome_iff {a : LogAppenderDefine} : a.kind.isSome = true ↔ a.type = 1 ∨ a.type = 2 := by
  unfold LogAppenderDefine.kind
  by_cases h1 : a.type = 1
  · simp [h1]
  · by_cases h2 : a.type = 2
    · simp [h2]
    · simp [h1, h2]

/-- The logger's appenders are the objects of these definitions. -/
def Defined (m : LoggerManager) (name : Str) (level : LogLevel) (fmt : LogFormatter)
    (appenders : List LogAppenderDefine) : Prop :=
  ∃ logger, m.loggers name = some logger ∧ logger.level = level ∧ logger.formatter = fmt ∧
    logger.appender.map (m.appenders[·]?) = appenders.map (object fmt)

/-- Pointers that are valid stay valid when the list of objects grows. -/
theorem map_getElem?_mono {objects objects' : List LogAppender} (h : objects <+: objects')
    {ps : List AppenderPtr} {os : List (Option LogAppender)} (hsome : ∀ o ∈ os, o.isSome = true)
    (heq : ps.map (objects[·]?) = os) : ps.map (objects'[·]?) = os := by
  subst heq
  refine List.map_congr_left fun p hp => ?_
  obtain ⟨a, ha⟩ := Option.isSome_iff_exists.mp (hsome _ (List.mem_map_of_mem hp))
  obtain ⟨more, rfl⟩ := h
  rw [ha, List.getElem?_append_left (List.getElem?_eq_some_iff.mp ha).1, ha]

theorem Defined.mono {level : LogLevel} {fmt : LogFormatter} {appenders : List LogAppenderDefine}
    (hkinds : ∀ a ∈ appenders, a.kind.isSome = true) (h : Defined m name level fmt appenders)
    (hsame : Same name m m') : Defined m' name level fmt appenders := by
  obtain ⟨logger, hl, hlevel, hfmt, happenders⟩ := h
  refine ⟨logger, hsame.1.trans hl, hlevel, hfmt, map_getElem?_mono hsame.2 ?_ happenders⟩
  intro o ho
  obtain ⟨a, ha, rfl⟩ := List.mem_map.mp ho
  simpa [object] using hkinds a ha

/-- One more appender, with the logger's formatter. -/
theorem addDefined_eq {a : LogAppenderDefine} {type : AppenderType}
    (hl : m.loggers name = some logger) (hk : a.kind = some type) :
    m.addDefined name a = some
      ({ m with appenders :=
          m.appenders ++ [(⟨type, a.level, some logger.formatter⟩ : LogAppender)] }.put name
        { logger with appender := logger.appender ++ [m.appenders.length] }) := by
  simp [addDefined, hk, newAppender, setAppenderLevel, addAppender, hl]

theorem Defined.add {level : LogLevel} {fmt : LogFormatter} {done : List LogAppenderDefine}
    {a : LogAppenderDefine} (hkinds : ∀ b ∈ done, b.kind.isSome = true) (ha : a.kind.isSome = true)
    (h : Defined m name level fmt done) :
    ∃ m', m.addDefined name a = some m' ∧ Defined m' name level fmt (done ++ [a]) ∧
      m.appenders <+: m'.appenders ∧ ∀ other, other ≠ name → m'.loggers other = m.loggers other := by
  obtain ⟨type, htype⟩ := Option.isSome_iff_exists.mp ha
  obtain ⟨logger, hl, hlevel, hfmt, happenders⟩ := h
  have hgrow : m.appenders <+: m.appenders ++ [(⟨type, a.level, some logger.formatter⟩ : LogAppender)] :=
    List.prefix_append _ _
  refine ⟨_, addDefined_eq hl htype, ?_, hgrow, fun other hne => put_of_ne _ _ hne⟩
  refine ⟨_, put_self .., hlevel, hfmt, ?_⟩
  have hsome : ∀ o ∈ done.map (object fmt), o.isSome = true := by
    intro o ho
    obtain ⟨b, hb, rfl⟩ := List.mem_map.mp ho
    simpa [object] using hkinds b hb
  rw [put_appenders, List.map_append, map_getElem?_mono hgrow hsome happenders, List.map_append]
  simp [object, htype, hfmt]

/-- The loop over the appenders. -/
theorem Defined.addAll {level : LogLevel} {fmt : LogFormatter} :
    ∀ {rest done : List LogAppenderDefine} {m : LoggerManager},
      (∀ b ∈ done, b.kind.isSome = true) → (∀ b ∈ rest, b.kind.isSome = true) →
      Defined m name level fmt done →
      ∃ m', rest.foldlM (addDefined name) m = some m' ∧ Defined m' name level fmt (done ++ rest) ∧
        m.appenders <+: m'.appenders ∧ ∀ other, other ≠ name → m'.loggers other = m.loggers other
  | [], done, m, _, _, h => ⟨m, rfl, by simpa using h, List.prefix_rfl, fun _ _ => rfl⟩
  | a :: rest, done, m, hdone, hrest, h => by
    have ha := hrest a List.mem_cons_self
    obtain ⟨m₁, hadd, h₁, hgrow₁, hother₁⟩ := h.add hdone ha
    have hdone₁ : ∀ b ∈ done ++ [a], b.kind.isSome = true := by
      intro b hb
      rcases List.mem_append.mp hb with hb | hb
      · exact hdone b hb
      · rw [List.mem_singleton.mp hb]
        exact ha
    obtain ⟨m', hloop, h', hgrow, hother⟩ :=
      Defined.addAll hdone₁ (fun b hb => hrest b (List.mem_cons_of_mem _ hb)) h₁
    refine ⟨m', ?_, ?_, hgrow₁.trans hgrow, fun other hne => (hother other hne).trans (hother₁ other hne)⟩
    · rw [List.foldlM_cons, hadd]
      exact hloop
    · rwa [List.append_assoc] at h'

/-- The logger of a definition, before it gets its appenders. -/
def prepared (m : LoggerManager) (i : LogDefine) : Logger :=
  { m.loggerOf i.name with level := i.level, formatter := m.formatterOf i, appender := [] }

/-- `set_level`, `set_formatter` and `clear_appenders`. -/
theorem prepare_eq (m : LoggerManager) (i : LogDefine) :
    (m.getLogger i.name).prepare i.name i = some ((m.getLogger i.name).put i.name (m.prepared i)) := by
  unfold prepare prepared formatterOf
  rw [setLevel, getLogger_self]
  by_cases hempty : i.formatter = []
  · simp [hempty, clearAppenders, put_put]
  · cases herror : (LogFormatter.create i.formatter).error with
    | true => simp [hempty, herror, setFormatter, clearAppenders, put_put]
    | false => simp [hempty, herror, setFormatter, clearAppenders, put_put]

/-- A definition that is added or changed, with known types. -/
theorem configure_spec (m : LoggerManager) {i : LogDefine}
    (hkinds : ∀ a ∈ i.appenders, a.kind.isSome = true) :
    ∃ m', (m.getLogger i.name).configure i.name i = some m' ∧
      Defined m' i.name i.level (m.formatterOf i) i.appenders ∧
      ∀ name, name ≠ i.name → Same name m m' := by
  have hstart : Defined ((m.getLogger i.name).put i.name (m.prepared i)) i.name i.level
      (m.formatterOf i) [] := ⟨m.prepared i, put_self .., rfl, rfl, rfl⟩
  obtain ⟨m', hloop, hdefined, hgrow, hother⟩ := Defined.addAll (by simp) hkinds hstart
  rw [put_appenders, getLogger_appenders] at hgrow
  refine ⟨m', ?_, hdefined, fun name hne => ⟨?_, hgrow⟩⟩
  · rw [configure, prepare_eq]
    exact hloop
  · rw [hother name hne, put_of_ne _ _ hne, getLogger_of_ne _ hne]

/-- What the listener needs of a new definition to get through. -/
def Passes (old : LogDefines) (i : LogDefine) : Prop :=
  i ∉ old.defs ∧ ∀ a ∈ i.appenders, a.kind.isSome = true

/-- An added or a changed definition. -/
theorem onNew_eq {old : LogDefines} {i : LogDefine} (hi : i ∉ old.defs) (m : LoggerManager) :
    m.onNew old i = (m.getLogger i.name).configure i.name i := by
  unfold onNew
  cases hfind : old.find i with
  | none => rfl
  | some it =>
    have hne : i ≠ it := by
      rintro rfl
      exact hi (LogDefines.find_eq_some_self_iff.mp hfind)
    simp only [ne_eq, hne, not_false_eq_true, if_true]

/-- An unchanged definition. -/
theorem onNew_unchanged {old : LogDefines} {i : LogDefine} (hi : i ∈ old.defs) (m : LoggerManager) :
    m.onNew old i = none := by
  unfold onNew
  rw [LogDefines.find_eq_some_self_iff.mpr hi]
  simp

/-- A loop over appenders that comes to its end has met known types only. -/
theorem kinds_of_configure {i : LogDefine} (h : m.configure name i = some m') :
    ∀ a ∈ i.appenders, a.kind.isSome = true := by
  obtain ⟨m₁, -, hloop⟩ := Option.bind_eq_some_iff.mp h
  refine foldlM_ok (fun m a m' hadd => ?_) hloop
  unfold addDefined at hadd
  cases hkind : a.kind with
  | none =>
    rw [hkind] at hadd
    cases hadd
  | some type => rfl

theorem passes_of_onNew {old : LogDefines} {i : LogDefine} (h : m.onNew old i = some m') :
    Passes old i := by
  have hi : i ∉ old.defs := by
    intro hi
    rw [onNew_unchanged hi] at h
    cases h
  rw [onNew_eq hi] at h
  exact ⟨hi, kinds_of_configure h⟩

/-! ## The two loops -/

/-- The entry of a new definition after the first loop, from the manager in front of it. -/
def NewDone (m m' : LoggerManager) (i : LogDefine) : Prop :=
  (∀ a ∈ i.appenders, a.kind.isSome = true) ∧
    Defined m' i.name i.level (m.formatterOf i) i.appenders

theorem formatterOf_congr {m₁ : LoggerManager} {i : LogDefine} (h : Same i.name m m₁) :
    m₁.formatterOf i = m.formatterOf i := by
  unfold formatterOf loggerOf
  rw [h.1]

/-- The first loop. -/
theorem newLoop_spec (old new : LogDefines) (m : LoggerManager) (hpass : ∀ i ∈ new.defs, Passes old i) :
    ∃ m', new.defs.foldlM (onNew old) m = some m' ∧ (∀ i ∈ new.defs, NewDone m m' i) ∧
      ∀ name, name ∉ new.names → Same name m m' := by
  refine foldlM_distinct LogDefine.name (Passes old) Same NewDone Same.refl
    (fun _ _ _ _ h h' => h.trans h') ?_ ?_ ?_ new.defs m new.distinct hpass
  · intro m m₁ m' i hsame hdone
    refine ⟨hdone.1, ?_⟩
    rw [← formatterOf_congr hsame]
    exact hdone.2
  · intro m m' m'' i hdone hsame
    exact ⟨hdone.1, hdone.2.mono hdone.1 hsame⟩
  · intro m i hpass
    obtain ⟨m', hrun, hdefined, hsame⟩ := configure_spec m hpass.2
    exact ⟨m', by rw [onNew_eq hpass.1, hrun], ⟨hpass.2, hdefined⟩, hsame⟩

/-- The logger of a removed definition is silenced. -/
def OldDone (new : LogDefines) (m m' : LoggerManager) (i : LogDefine) : Prop :=
  (i.name ∉ new.names → ∃ logger, m'.loggers i.name = some logger ∧ logger.level = .never ∧
      logger.appender = []) ∧
    (i.name ∈ new.names → Same i.name m m')

theorem onOld_spec (new : LogDefines) (m : LoggerManager) (i : LogDefine) :
    ∃ m', m.onOld new i = some m' ∧ OldDone new m m' i ∧ ∀ name, name ≠ i.name → Same name m m' := by
  unfold onOld
  cases hfind : new.find i with
  | some k =>
    have hin : i.name ∈ new.names := by
      by_contra hout
      rw [LogDefines.find_eq_none_iff.mpr hout] at hfind
      cases hfind
    exact ⟨m, rfl, ⟨fun hout => absurd hin hout, fun _ => Same.refl _ m⟩, fun name _ => Same.refl name m⟩
  | none =>
    have hout := LogDefines.find_eq_none_iff.mp hfind
    refine ⟨(m.getLogger i.name).put i.name
      { m.loggerOf i.name with level := .never, appender := [] }, ?_, ?_, ?_⟩
    · simp [setLevel, clearAppenders, getLogger_self, put_put]
    · exact ⟨fun _ => ⟨_, put_self .., rfl, rfl⟩, fun hin => absurd hin hout⟩
    · intro name hne
      refine ⟨?_, ?_⟩
      · rw [put_of_ne _ _ hne, getLogger_of_ne _ hne]
      · rw [put_appenders, getLogger_appenders]

/-- The second loop. -/
theorem oldLoop_spec (old new : LogDefines) (m : LoggerManager) :
    ∃ m', old.defs.foldlM (onOld new) m = some m' ∧ (∀ i ∈ old.defs, OldDone new m m' i) ∧
      ∀ name, name ∉ old.names → Same name m m' := by
  refine foldlM_distinct LogDefine.name (fun _ => True) Same (OldDone new) Same.refl
    (fun _ _ _ _ h h' => h.trans h') ?_ ?_ (fun m i _ => onOld_spec new m i) old.defs m old.distinct
    fun _ _ => trivial
  · intro m m₁ m' i hsame hdone
    exact ⟨hdone.1, fun hin => hsame.trans (hdone.2 hin)⟩
  · intro m m' m'' i hdone hsame
    refine ⟨fun hout => ?_, fun hin => (hdone.2 hin).trans hsame⟩
    obtain ⟨logger, hl, h⟩ := hdone.1 hout
    exact ⟨logger, hsame.1.trans hl, h⟩

/-! ## The listener -/

/-- What the listener leaves, if it gets through. -/
structure Outcome (old new : LogDefines) (m m' : LoggerManager) : Prop where
  named : ∀ i ∈ new.defs, Defined m' i.name i.level (m.formatterOf i) i.appenders
  removed : ∀ i ∈ old.defs, i.name ∉ new.names →
    ∃ logger, m'.loggers i.name = some logger ∧ logger.level = .never ∧ logger.appender = []
  others : ∀ name, name ∉ new.names → name ∉ old.names → m'.loggers name = m.loggers name
  objects : m.appenders <+: m'.appenders

theorem onChange_spec (old new : LogDefines) (m : LoggerManager) (hpass : ∀ i ∈ new.defs, Passes old i) :
    ∃ m', onChange old new m = some m' ∧ Outcome old new m m' := by
  obtain ⟨m₁, hnew, hdone, hsame⟩ := newLoop_spec old new m hpass
  obtain ⟨m', hold, hremoved, hsame'⟩ := oldLoop_spec old new m₁
  have hothers : ∀ name, name ∉ new.names → name ∉ old.names → Same name m m' :=
    fun name hn ho => (hsame name hn).trans (hsame' name ho)
  refine ⟨m', ?_, ?_, fun i hi => (hremoved i hi).1, fun name hn ho => (hothers name hn ho).1, ?_⟩
  · rw [onChange, hnew]
    exact hold
  · intro i hi
    refine (hdone i hi).2.mono (hdone i hi).1 ?_
    -- the second loop leaves alone what the new set names
    by_cases hin : i.name ∈ old.names
    · obtain ⟨k, hk, hname⟩ := List.mem_map.mp hin
      have hkeep := (hremoved k hk).2 (by rw [hname]; exact List.mem_map_of_mem hi)
      rwa [hname] at hkeep
    · exact hsame' i.name hin
  · -- the objects only grow, as a name shows that is in neither set
    obtain ⟨name, hname⟩ := Infinite.exists_notMem_finset (new.names ++ old.names).toFinset
    rw [List.mem_toFinset, List.mem_append, not_or] at hname
    exact (hothers name hname.1 hname.2).2

theorem passes_of_onChange {old new : LogDefines} (h : onChange old new m = some m') :
    ∀ i ∈ new.defs, Passes old i := by
  obtain ⟨m₁, hnew, -⟩ := Option.bind_eq_some_iff.mp h
  refine foldlM_ok (fun m i m' hi => ?_) hnew
  exact passes_of_onNew hi

/-- The appenders of a logger are what is asked for if their own formatters are the logger's. -/
theorem asked_iff {i : LogDefine} {fmt : LogFormatter} {ps : List AppenderPtr}
    (hkinds : ∀ a ∈ i.appenders, a.kind.isSome = true)
    (h : ps.map (m'.appenders[·]?) = i.appenders.map (object fmt)) :
    (ps.map (fun p => (m'.appenders[p]?).map fun a => (a.type, a.formatter)) =
        i.appenders.map fun a => a.kind.map fun type => (type, some (a.asked fmt))) ↔
      ∀ a ∈ i.appenders, a.asked fmt = fmt := by
  have hmade : ps.map (fun p => (m'.appenders[p]?).map fun a => (a.type, a.formatter)) =
      i.appenders.map fun a => a.kind.map fun type => (type, some fmt) := by
    have hmap := congrArg (List.map (Option.map fun a : LogAppender => (a.type, a.formatter))) h
    simpa [object, Function.comp_def] using hmap
  rw [hmade, List.map_inj_left]
  refine forall₂_congr fun a ha => ?_
  obtain ⟨type, htype⟩ := Option.isSome_iff_exists.mp (hkinds a ha)
  simp [htype, eq_comm]

theorem asked_eq_iff {a : LogAppenderDefine} {fmt : LogFormatter} :
    a.asked fmt = fmt ↔ (a.formatter ≠ [] → (LogFormatter.create a.formatter).error = false →
      .create a.formatter = fmt) := by
  unfold LogAppenderDefine.asked
  by_cases hown : a.formatter ≠ [] ∧ (LogFormatter.create a.formatter).error = false
  · simp [hown]
  · rw [if_neg hown]
    exact iff_of_true rfl fun h h' => absurd ⟨h, h'⟩ hown

/-- What is left is what a configuration asks for, but for the formatters of the appenders. -/
theorem Outcome.applied_iff_asked {old new : LogDefines} (hout : Outcome old new m m')
    (hpass : ∀ i ∈ new.defs, Passes old i) :
    Applied old new m m' ↔
      ∀ i ∈ new.defs, ∀ a ∈ i.appenders, a.asked (m.formatterOf i) = m.formatterOf i := by
  constructor
  · intro h i hi
    obtain ⟨logger, hl, hlevel, hasked⟩ := h.named i hi
    obtain ⟨logger', hl', -, hfmt, happenders⟩ := hout.named i hi
    cases hl.symm.trans hl'
    rw [hfmt] at hasked
    exact (asked_iff (hpass i hi).2 happenders).mp hasked
  · intro h
    refine ⟨fun i hi => ?_, hout.removed, hout.others, fun p hp => ?_⟩
    · obtain ⟨logger, hl, hlevel, hfmt, happenders⟩ := hout.named i hi
      refine ⟨logger, hl, hlevel, ?_⟩
      rw [hfmt]
      exact (asked_iff (hpass i hi).2 happenders).mpr (h i hi)
    · obtain ⟨more, hmore⟩ := hout.objects
      rw [← hmore, List.getElem?_append_left hp]

/-- **Applying a configuration.** For every old and every new set of
definitions and every manager, the listener gets through and leaves what
the new set asks for exactly if every new definition is added or changed,
has known appender types, and asks for no formatter of an appender but the
one its logger gets. -/
theorem applied_iff (old new : LogDefines) (m : LoggerManager) :
    (∃ m', onChange old new m = some m' ∧ Applied old new m m') ↔ ∀ i ∈ new.defs, Fits old m i := by
  constructor
  · rintro ⟨m', hrun, happlied⟩ i hi
    have hpass := passes_of_onChange hrun
    obtain ⟨m₁, hrun₁, hout⟩ := onChange_spec old new m hpass
    cases hrun.symm.trans hrun₁
    refine ⟨(hpass i hi).1, fun a ha => kind_isSome_iff.mp ((hpass i hi).2 a ha), fun a ha => ?_⟩
    exact asked_eq_iff.mp ((hout.applied_iff_asked hpass).mp happlied i hi a ha)
  · intro hfits
    have hpass : ∀ i ∈ new.defs, Passes old i := fun i hi =>
      ⟨(hfits i hi).changed, fun a ha => kind_isSome_iff.mpr ((hfits i hi).types a ha)⟩
    obtain ⟨m', hrun, hout⟩ := onChange_spec old new m hpass
    refine ⟨m', hrun, (hout.applied_iff_asked hpass).mpr fun i hi a ha => ?_⟩
    exact asked_eq_iff.mpr ((hfits i hi).formatters a ha)

/-- `set_value` on the variable `logs` hands a changed set to the listener. -/
theorem setValue_logDefines {old new : LogDefines} (h : old ≠ new) (m : LoggerManager) :
    { logDefines with val := old }.setValue new m =
      (onChange old new m).map fun m => ({ logDefines with val := new }, m) :=
  ConfigVar.setValue_listener h m

/-- A logger `system` that writes to the console. -/
def systemDefine : LogDefine := ⟨str "system", .info, [], [⟨2, .debug, [], []⟩]⟩

/-- A logger `net` that writes to a file. -/
def netDefine : LogDefine := ⟨str "net", .warn, [], [⟨1, .debug, [], str "net.txt"⟩]⟩

def oldDefines : LogDefines := ⟨[systemDefine], by decide⟩

def newDefines : LogDefines := ⟨[systemDefine, netDefine], by decide⟩

/-- A second logger is added, and the first definition stays: the listener
goes through a null pointer for the first one. -/
theorem not_applied_added :
    onChange oldDefines newDefines create = none ∧
      ¬ ∃ m', onChange oldDefines newDefines create = some m' ∧
        Applied oldDefines newDefines create m' := by
  have hin : systemDefine ∈ oldDefines.defs := List.mem_cons_self
  have hnone : onChange oldDefines newDefines create = none := by
    simp only [onChange, newDefines, List.foldlM_cons, onNew_unchanged hin]
    rfl
  refine ⟨hnone, ?_⟩
  rintro ⟨m', hrun, -⟩
  rw [hnone] at hrun
  cases hrun

end LoggerManager

end TinyTcp.Log
