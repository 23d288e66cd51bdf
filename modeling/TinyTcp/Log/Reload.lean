/-
TinyTcp.Log.Reload — loading one configuration after another:
`Config::load_from_yaml` with the variable `logs` and its listener.

The registry holds the variable alone; the others do not reach the loggers.
A document says of `logs` what its nodes of that name say, one after
another, so loading documents is reading texts (`load_eq`).

A listener that meets a definition it has applied before goes through a
null pointer. `loads_survive_iff` says when a program gets through a
sequence of documents: exactly if no definition of an accepted set, other
than the set in force, is one of the set in force. `loads_follow` says what
the loggers are then: those of the last accepted set have the levels and the
appenders it defines, whatever was loaded before, and all others are silent,
but for a root that was never named. A formatter is that of the definition
if it has a valid one; if not, the logger keeps what it had, which may come
from a document loaded before.
-/
import TinyTcp.Log.DefineCast

namespace TinyTcp.Log

open TinyTcp.Lib TinyTcp.Config

/-! ## Loading -/

abbrev LogVar := ConfigVar LogDefines LoggerManager

abbrev LogRegistry := Registry (fun _ : Unit => LogDefines) LoggerManager

/-- The name of the variable. -/
def logsName : Str := str "logs"

/-- The registry with the variable `logs`. -/
def logRegistry (c : LogVar) : LogRegistry where
  datas := Function.update (fun _ => none) logsName (some 0)
  vars := [⟨logsName, (), c⟩]
  funcId := fun _ => 1

variable (y : Yaml)

/-- A call of `load_from_yaml`. -/
def load (s : LogRegistry × LoggerManager) (root : Node) : Option (LogRegistry × LoggerManager) :=
  s.1.loadFromYaml (fun _ => castDefines y) (fun node => y.emit (some node)) root s.2

/-- A call of `from_string` on the variable. -/
def reload (s : LogVar × LoggerManager) (v : Str) : Option (LogVar × LoggerManager) :=
  (s.1.fromString (castDefines y) v s.2).map Prod.snd

/-- What a document says of `logs`. -/
def logTexts (root : Node) : List Str :=
  ((members root).filter (·.1 = logsName)).map fun n => nodeText (fun node => y.emit (some node)) n.2

/-- The texts do not ask for a definition again that is in force, unless for the same set. -/
def Fresh (s : LogVar × LoggerManager) (v : Str) : Prop :=
  ∀ new, castDefines y v = some new → new ≠ s.1.val → ∀ i ∈ new.defs, i ∉ s.1.val.defs

/-- The program starts with the variable, its listener and the root. -/
theorem logRegistry_made :
    ((Registry.empty : LogRegistry).lookUp logsName () .empty).2.addListener 0 ()
      LoggerManager.onChange .create = some (logRegistry logDefines, .create) := by
  have hnew := Registry.lookUp_new (r := (Registry.empty : LogRegistry)) rfl
    (show validName logsName = true by decide) () .empty
  rw [hnew]
  have hcount : Function.update (fun _ : Unit => 0) () 1 = fun _ => 1 := funext fun _ => Function.update_self ..
  show some (_, _) = _
  unfold logRegistry
  rw [← hcount]
  rfl

/-! ## Documents and texts -/

theorem logsName_ne_nil : logsName ≠ [] := by decide

variable {y}

/-- A node named `logs` is a text for the variable, any other one is passed over. -/
theorem loadNode_logs (c : LogVar) (m : LoggerManager) (key : Str) (node : Node) :
    Registry.loadNode (fun _ => castDefines y) (fun node => y.emit (some node)) (logRegistry c, m) (key, node) =
      if key = logsName then
        (reload y (c, m) (nodeText (fun node => y.emit (some node)) node)).map
          fun s => (logRegistry s.1, s.2)
      else some (logRegistry c, m) := by
  rw [Registry.loadNode]
  by_cases hkey : key = logsName
  · subst hkey
    have hbase : (logRegistry c).lookUpBase logsName = some 0 := by
      simp [Registry.lookUpBase, logRegistry]
    rw [if_neg logsName_ne_nil, if_pos rfl, hbase, reload, Option.map_map]
    show Option.map _ _ = _
    rw [Option.map_map]
    rfl
  · rw [if_neg hkey]
    have hbase : (logRegistry c).lookUpBase key = none := by
      simp [Registry.lookUpBase, logRegistry, hkey]
    rw [hbase]
    simp

theorem loadNodes_logs (nodes : List (Str × Node)) (c : LogVar) (m : LoggerManager) :
    nodes.foldlM (Registry.loadNode (fun _ => castDefines y) fun node => y.emit (some node))
        (logRegistry c, m) =
      (run (reload y) (c, m) ((nodes.filter (·.1 = logsName)).map
        fun n => nodeText (fun node => y.emit (some node)) n.2)).map fun s => (logRegistry s.1, s.2) := by
  induction nodes generalizing c m with
  | nil => rfl
  | cons n nodes ih =>
    obtain ⟨key, node⟩ := n
    rw [List.foldlM_cons, loadNode_logs]
    by_cases hkey : key = logsName
    · rw [if_pos hkey, List.filter_cons_of_pos (by simpa using hkey), List.map_cons]
      cases hreload : reload y (c, m) (nodeText (fun node => y.emit (some node)) node) with
      | none => simp [run, hreload]
      | some s =>
        rw [run_cons hreload]
        exact ih s.1 s.2
    · rw [if_neg hkey, List.filter_cons_of_neg (by simpa using hkey)]
      exact ih c m

/-- Loading documents is reading texts. -/
theorem load_eq (docs : List Node) (c : LogVar) (m : LoggerManager) :
    run (load y) (logRegistry c, m) docs =
      (run (reload y) (c, m) (docs.flatMap (logTexts y))).map fun s => (logRegistry s.1, s.2) := by
  induction docs generalizing c m with
  | nil => rfl
  | cons root docs ih =>
    have hload : load y (logRegistry c, m) root =
        (run (reload y) (c, m) (logTexts y root)).map fun s => (logRegistry s.1, s.2) := by
      rw [load, Registry.loadFromYaml, listAllMember_root]
      exact loadNodes_logs (members root) c m
    rw [List.flatMap_cons, run_append]
    cases hrun : run (reload y) (c, m) (logTexts y root) with
    | none =>
      rw [hrun, Option.map_none] at hload
      simp [run, hload]
    | some s =>
      rw [hrun, Option.map_some] at hload
      rw [run_cons hload, Option.bind_some]
      exact ih s.1 s.2

/-! ## One text -/

/-- The loggers are as the set defines them, and the others are silent. -/
structure InForce (defs : LogDefines) (m : LoggerManager) : Prop where
  named : ∀ i ∈ defs.defs, ∃ logger, m.loggers i.name = some logger ∧ logger.level = i.level ∧
    (i.formatter ≠ [] → (LogFormatter.create i.formatter).error = false →
      logger.formatter = .create i.formatter) ∧
    logger.appender.map (m.appenders[·]?) = i.appenders.map (LoggerManager.object logger.formatter)
  others : ∀ name logger, m.loggers name = some logger → name ∉ defs.names →
    logger.level = .never ∧ logger.appender = [] ∨ name = rootName ∧ logger = LoggerManager.rootLogger

/-- The variable with its listener, and the loggers of its set. -/
def Loaded (s : LogVar × LoggerManager) : Prop :=
  s.1 = { logDefines with val := s.1.val } ∧ InForce s.1.val s.2

theorem loaded_start : Loaded (logDefines, .create) := by
  refine ⟨rfl, nofun, fun name logger hl _ => Or.inr ?_⟩
  by_cases hname : name = rootName
  · subst hname
    cases LoggerManager.create_root.symm.trans hl
    exact ⟨rfl, rfl⟩
  · rw [LoggerManager.create_other hname] at hl
    cases hl

/-- The set that is in force, once the listener has come back. -/
theorem InForce.change {old new : LogDefines} {m : LoggerManager} (h : InForce old m)
    (hpass : ∀ i ∈ new.defs, LoggerManager.Passes old i) :
    ∃ m', LoggerManager.onChange old new m = some m' ∧ InForce new m' := by
  obtain ⟨m', hrun, hout⟩ := LoggerManager.onChange_spec old new m hpass
  refine ⟨m', hrun, fun i hi => ?_, fun name logger hl hname => ?_⟩
  · obtain ⟨logger, hl, hlevel, hfmt, happenders⟩ := hout.named i hi
    refine ⟨logger, hl, hlevel, fun hgiven hvalid => ?_, hfmt ▸ happenders⟩
    rw [hfmt, LoggerManager.formatterOf, if_pos ⟨hgiven, hvalid⟩]
  · by_cases hold : name ∈ old.names
    · obtain ⟨i, hi, rfl⟩ := List.mem_map.mp hold
      obtain ⟨logger', hl', hsilent⟩ := hout.removed i hi hname
      cases hl.symm.trans hl'
      exact Or.inl hsilent
    · rw [hout.others name hname hold] at hl
      exact h.others name logger hl hold

/-- What a text has to be for the program to go on. -/
theorem reload_spec {s : LogVar × LoggerManager} (hs : Loaded s) (v : Str) :
    ((reload y s v).isSome = true ↔ Fresh y s v) ∧
      ∀ s', reload y s v = some s' → Loaded s' ∧
        s'.1.val = (castDefines y v).getD s.1.val := by
  obtain ⟨c, m⟩ := s
  obtain ⟨hvar, hforce⟩ := hs
  dsimp only at hvar hforce
  unfold reload ConfigVar.fromString
  cases hcast : castDefines y v with
  | none =>
    refine ⟨iff_of_true rfl fun new hnew => ?_, ?_⟩
    · rw [hcast] at hnew
      cases hnew
    · rintro s' heq
      cases heq
      exact ⟨⟨hvar, hforce⟩, rfl⟩
  | some new =>
    have hfresh : Fresh y (c, m) v ↔ (new ≠ c.val → ∀ i ∈ new.defs, i ∉ c.val.defs) := by
      unfold Fresh
      rw [hcast]
      simp
    rw [hfresh]
    dsimp only
    by_cases hsame : c.val = new
    · subst hsame
      rw [ConfigVar.setValue_same]
      refine ⟨iff_of_true rfl fun hne => absurd rfl hne, ?_⟩
      rintro s' heq
      cases heq
      exact ⟨⟨hvar, hforce⟩, rfl⟩
    · rw [hvar, LoggerManager.setValue_logDefines hsame]
      have hkinds : ∀ i ∈ new.defs, ∀ a ∈ i.appenders, a.kind.isSome = true := fun i hi a ha =>
        LoggerManager.kind_isSome_iff.mpr
          ((((accepted_wellFormed hcast).2 i hi).2 a ha).2.imp_right And.left)
      have hiff : (LoggerManager.onChange c.val new m).isSome = true ↔ ∀ i ∈ new.defs, i ∉ c.val.defs := by
        constructor
        · intro hsome i hi
          obtain ⟨m', hm'⟩ := Option.isSome_iff_exists.mp hsome
          exact (LoggerManager.passes_of_onChange hm' i hi).1
        · intro hnew
          obtain ⟨m', hm', -⟩ := hforce.change fun i hi => ⟨hnew i hi, hkinds i hi⟩
          rw [hm']
          rfl
      constructor
      · simpa [Ne.symm hsame] using hiff
      · intro s' heq
        cases hchange : LoggerManager.onChange c.val new m with
        | none => simp [hchange] at heq
        | some m₁ =>
          simp only [hchange, Option.map_some, Option.some.injEq] at heq
          subst heq
          have hnew := hiff.mp (by rw [hchange]; rfl)
          obtain ⟨m', hm', hf⟩ := hforce.change fun i hi => ⟨hnew i hi, hkinds i hi⟩
          cases hchange.symm.trans hm'
          exact ⟨⟨rfl, hf⟩, rfl⟩

/-! ## Sequences of documents -/

/-- **Getting through.** A program that loads documents one after another
goes on as long as, and only as long as, no accepted set, other than the one
in force, has a definition of the one in force. -/
theorem loads_survive_iff (y : Yaml) (docs : List Node) :
    (run (load y) (logRegistry logDefines, .create) docs).isSome = true ↔
      Along (reload y) (Fresh y) (logDefines, .create) (docs.flatMap (logTexts y)) := by
  rw [load_eq, Option.isSome_map]
  exact run_isSome_iff (fun s v hs => (reload_spec hs v).1) (fun s v s' hs h => ((reload_spec hs v).2 s' h).1)
    _ _ loaded_start

theorem reloads_spec : ∀ {vs : List Str} {s s' : LogVar × LoggerManager}, Loaded s →
    run (reload y) s vs = some s' →
      Loaded s' ∧ s'.1.val = ((vs.filterMap (castDefines y)).getLast?).getD s.1.val
  | [], s, s', hs, hrun => by
    cases hrun
    exact ⟨hs, rfl⟩
  | v :: vs, s, s', hs, hrun => by
    cases hreload : reload y s v with
    | none => simp [run, hreload] at hrun
    | some s₁ =>
      rw [run_cons hreload] at hrun
      obtain ⟨hs₁, hval₁⟩ := (reload_spec hs v).2 s₁ hreload
      obtain ⟨hs', hval⟩ := reloads_spec hs₁ hrun
      refine ⟨hs', hval.trans ?_⟩
      rw [hval₁]
      cases hcast : castDefines y v with
      | none => rw [List.filterMap_cons_none hcast, Option.getD_none]
      | some defs => rw [List.filterMap_cons_some hcast, List.getLast?_cons, Option.getD_some, Option.getD_some]

/-- **What is in force.** After any documents the loggers are those of the
set that was accepted last. -/
theorem loads_follow (y : Yaml) (docs : List Node) {r : LogRegistry} {m : LoggerManager}
    (hrun : run (load y) (logRegistry logDefines, .create) docs = some (r, m)) :
    ∃ defs, r = logRegistry { logDefines with val := defs } ∧ InForce defs m ∧
      defs = (((docs.flatMap (logTexts y)).filterMap (castDefines y)).getLast?).getD .empty := by
  rw [load_eq] at hrun
  obtain ⟨s, hs, heq⟩ := Option.map_eq_some_iff.mp hrun
  cases heq
  obtain ⟨⟨hvar, hforce⟩, hval⟩ := reloads_spec loaded_start hs
  refine ⟨s.1.val, ?_, hforce, hval⟩
  exact congrArg logRegistry hvar

/-- A document with the set, as the library gives it to `from_string`. -/
def consoleDoc : Node := .map [(.scalar logsName, definesNode consoleDefines)]

theorem loads_follow_console : ∃ r m,
    run (load consoleYaml) (logRegistry logDefines, .create) [consoleDoc] = some (r, m) ∧
      InForce consoleDefines m := by
  have hsome : (run (load consoleYaml) (logRegistry logDefines, .create) [consoleDoc]).isSome = true := by
    decide
  obtain ⟨⟨r, m⟩, hrun⟩ := Option.isSome_iff_exists.mp hsome
  obtain ⟨defs, -, hforce, hdefs⟩ := loads_follow consoleYaml [consoleDoc] hrun
  have hlast : (((([consoleDoc] : List Node).flatMap (logTexts consoleYaml)).filterMap
      (castDefines consoleYaml)).getLast?).getD .empty = consoleDefines := by decide
  rw [hlast] at hdefs
  exact ⟨r, m, hrun, hdefs ▸ hforce⟩

end TinyTcp.Log
