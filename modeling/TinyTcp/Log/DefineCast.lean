/-
TinyTcp.Log.DefineCast — the conversions between a set of log definitions
and YAML text: `LexicalCast` for `LogDefine` of `src/log.cc` and for
`std::set<T>` of `src/config.h`.

`Yaml` is what the code uses of the YAML library: a text is loaded as a
document and a document printed as a text, and `Returns` says of a document
that its text is loaded as itself. `none` is an exception.

Printing a definition and reading it back does not give it again in every
case. An appender's level is printed and never read, an appender of an
unknown type and the file of a console appender are dropped, and the level
`NEVER` is printed as `UNKNOW`. `normal` is what is left. `printed_iff`
says that a set is read back as it was exactly if there is nothing of this
in it, and `accepted_wellFormed` that there never is in a set that was read.

## How the proof goes

A definition is printed as a map, so the casts are compared on `defineNode`,
entry by entry. The loop over a sequence is a `mapM` over its elements, and
a set that is read in the order of its names is appended name after name.
-/
import TinyTcp.Log.Defines
import TinyTcp.Config.Registry
import Mathlib.Data.List.ReduceOption

namespace TinyTcp.Log

open TinyTcp.Lib TinyTcp.Config

/-! ## The library -/

structure Yaml where
  /-- `YAML::Load` -/
  load : Str → Option Node
  /-- `operator<<`, also for a node that is not defined -/
  emit : Option Node → Str
  /-- `operator[]` with an index on a map -/
  mapAt : List (Node × Node) → Nat → Option Node
  /-- `as<std::string>` of a null -/
  nullString : Option Str

namespace Yaml

variable (y : Yaml)

/-- The text of the document is loaded as this document. -/
def Returns (n : Node) : Prop := y.load (y.emit (some n)) = some n

/-- `size` -/
def size : Node → Nat
  | .seq items => items.length
  | .map entries => entries.length
  | _ => 0

/-- `operator[]` with an index below the size. -/
def index (i : Nat) : Node → Option Node
  | .seq items => items[i]?
  | .map entries => y.mapAt entries i
  | _ => none

/-- The value of the first entry with this key. -/
def entry (key : Str) : List (Node × Node) → Option Node
  | [] => none
  | (.scalar k, v) :: rest => if k = key then some v else entry key rest
  | _ :: rest => entry key rest

/-- `operator[]` with a string, which throws on a scalar. -/
def get (key : Str) : Option Node → Option (Option Node)
  | some (.scalar _) => none
  | some (.map entries) => some (entry key entries)
  | _ => some none

/-- `as<std::string>` -/
def asString : Node → Option Str
  | .scalar s => some s
  | .null => y.nullString
  | _ => none

/-- A member that may be missing, as a string. -/
def stringOr : Option Node → Option Str
  | none => some []
  | some n => y.asString n

end Yaml

/-! ## Levels -/

def LogLevel.toString : LogLevel → Str
  | debug => str "DEBUG"
  | info => str "INFO"
  | warn => str "WARN"
  | error => str "ERROR"
  | fatal => str "FATAL"
  | _ => str "UNKNOW"

def LogLevel.fromString (s : Str) : LogLevel :=
  if s = str "DEBUG" then debug
  else if s = str "INFO" then info
  else if s = str "WARN" then warn
  else if s = str "ERROR" then error
  else if s = str "FATAL" then fatal
  else unknow

/-! ## Reading -/

/-- The body of the loop over the appenders; `some none` goes on with the next one. -/
def castAppender (y : Yaml) (a : Option Node) : Option (Option LogAppenderDefine) := do
  match ← Yaml.get (str "type") a with
  | none => some none
  | some type =>
      let type ← y.asString type
      if type = str "FileLogAppender" then
        match ← Yaml.get (str "file") a with
        | none => some none
        | some file =>
            let file ← y.asString file
            let formatter ← y.stringOr (← Yaml.get (str "formatter") a)
            some (some ⟨1, .unknow, formatter, file⟩)
      else if type = str "StdoutLogAppender" then
        let formatter ← y.stringOr (← Yaml.get (str "formatter") a)
        some (some ⟨2, .unknow, formatter, []⟩)
      else some none

/-- The loop over the appenders. -/
def castAppenders (y : Yaml) : Option Node → Option (List LogAppenderDefine)
  | none => some []
  | some node =>
      ((List.range (Yaml.size node)).mapM fun x => castAppender y (y.index x node)).map List.reduceOption

/-- `LexicalCast<std::string, LogDefine>` -/
def castDefine (y : Yaml) (v : Str) : Option LogDefine := do
  let n ← y.load v
  match ← Yaml.get (str "name") (some n) with
  | none => none
  | some name =>
      let name ← y.asString name
      let level ← y.stringOr (← Yaml.get (str "level") (some n))
      let formatter ← y.stringOr (← Yaml.get (str "formatter") (some n))
      let appenders ← castAppenders y (← Yaml.get (str "appenders") (some n))
      some ⟨name, .fromString level, formatter, appenders⟩

namespace LogDefines

/-- The place of a name in the order of the set. -/
def place (i : LogDefine) : List LogDefine → List LogDefine
  | [] => [i]
  | k :: l => if k.name < i.name then k :: place i l else i :: k :: l

theorem place_perm (i : LogDefine) (l : List LogDefine) : (place i l).Perm (i :: l) := by
  induction l with
  | nil => exact .refl _
  | cons k l ih =>
    rw [place]
    split
    · exact (ih.cons k).trans (.swap i k l)
    · exact .refl _

/-- `std::set::insert` -/
def insert (s : LogDefines) (i : LogDefine) : LogDefines :=
  if h : i.name ∈ s.names then s
  else ⟨place i s.defs, (((place_perm i s.defs).map LogDefine.name).nodup_iff).mpr
    (List.nodup_cons.mpr ⟨h, s.distinct⟩)⟩

/-- The order of a `std::set`. -/
def Sorted (s : LogDefines) : Prop := s.defs.Pairwise fun a b => a.name < b.name

end LogDefines

/-- `LexicalCast<std::string, std::set<LogDefine>>` -/
def castDefines (y : Yaml) (v : Str) : Option LogDefines := do
  let node ← y.load v
  let items ← (List.range (Yaml.size node)).mapM fun i => castDefine y (y.emit (y.index i node))
  some (items.foldl LogDefines.insert .empty)

/-! ## Printing -/

def member (key : String) (value : Str) : Node × Node := (.scalar (str key), .scalar value)

/-- The node `na`, a null until something is assigned to it. -/
def appenderNode (a : LogAppenderDefine) : Node :=
  match (if a.type = 1 then [member "type" (str "FileLogAppender"), member "file" a.file]
      else if a.type = 2 then [member "type" (str "StdoutLogAppender")] else []) ++
    (if a.level ≠ .unknow then [member "level" a.level.toString] else []) ++
    (if a.formatter ≠ [] then [member "formatter" a.formatter] else []) with
  | [] => .null
  | entries => .map entries

def defineNode (i : LogDefine) : Node :=
  .map ([member "name" i.name] ++
    (if i.level ≠ .unknow then [member "level" i.level.toString] else []) ++
    (if i.formatter ≠ [] then [member "formatter" i.formatter] else []) ++
    (if i.appenders ≠ [] then [(.scalar (str "appenders"), .seq (i.appenders.map appenderNode))] else []))

/-- `LexicalCast<LogDefine, std::string>` -/
def printDefine (y : Yaml) (i : LogDefine) : Str := y.emit (some (defineNode i))

/-- A null until something is pushed to it. -/
def seqNode : List Node → Node
  | [] => .null
  | items => .seq items

/-- `LexicalCast<std::set<LogDefine>, std::string>` -/
def printDefines (y : Yaml) (v : LogDefines) : Option Str := do
  let items ← v.defs.mapM fun i => y.load (printDefine y i)
  some (y.emit (some (seqNode items)))

/-! ## What is left of a definition -/

/-- The appender has a type, and nothing that is not read back. -/
def LogAppenderDefine.Kept (a : LogAppenderDefine) : Prop :=
  a.level = .unknow ∧ (a.type = 1 ∨ a.type = 2 ∧ a.file = [])

def LogDefine.Kept (i : LogDefine) : Prop := i.level ≠ .never ∧ ∀ a ∈ i.appenders, a.Kept

def LogAppenderDefine.normal (a : LogAppenderDefine) : Option LogAppenderDefine :=
  if a.type = 1 then some ⟨1, .unknow, a.formatter, a.file⟩
  else if a.type = 2 then some ⟨2, .unknow, a.formatter, []⟩
  else none

def LogDefine.normal (i : LogDefine) : LogDefine :=
  { i with
    level := if i.level = .never then .unknow else i.level
    appenders := i.appenders.filterMap LogAppenderDefine.normal }

/-! ## One definition -/

theorem fromString_toString (level : LogLevel) :
    LogLevel.fromString level.toString = if level = .never then .unknow else level := by
  cases level <;> decide

theorem fromString_nil : LogLevel.fromString [] = .unknow := by decide

theorem fromString_ne_never (s : Str) : LogLevel.fromString s ≠ .never := by
  unfold LogLevel.fromString
  split_ifs <;> exact nofun

@[simp] theorem get_null (key : Str) : Yaml.get key (some .null) = some none := rfl

@[simp] theorem get_map (key : Str) (entries : List (Node × Node)) :
    Yaml.get key (some (.map entries)) = some (Yaml.entry key entries) := rfl

@[simp] theorem entry_nil (key : Str) : Yaml.entry key [] = none := rfl

@[simp] theorem entry_scalar (key k : Str) (v : Node) (rest : List (Node × Node)) :
    Yaml.entry key ((.scalar k, v) :: rest) = if k = key then some v else Yaml.entry key rest := rfl

@[simp] theorem stringOr_scalar (y : Yaml) (s : Str) : y.stringOr (some (.scalar s)) = some s := rfl

@[simp] theorem stringOr_none (y : Yaml) : y.stringOr none = some [] := rfl

@[simp] theorem asString_scalar (y : Yaml) (s : Str) : y.asString (.scalar s) = some s := rfl

theorem castAppender_appenderNode (y : Yaml) (a : LogAppenderDefine) :
    castAppender y (some (appenderNode a)) = some a.normal := by
  obtain ⟨type, level, formatter, file⟩ := a
  by_cases h1 : type = 1
  · subst h1
    by_cases hl : level = .unknow <;> by_cases hf : formatter = [] <;>
      simp +decide [appenderNode, castAppender, LogAppenderDefine.normal, member, hl, hf]
  · by_cases h2 : type = 2
    · subst h2
      by_cases hl : level = .unknow <;> by_cases hf : formatter = [] <;>
        simp +decide [appenderNode, castAppender, LogAppenderDefine.normal, member, hl, hf]
    · by_cases hl : level = .unknow <;> by_cases hf : formatter = [] <;>
        simp +decide [appenderNode, castAppender, LogAppenderDefine.normal, member, h1, h2, hl, hf]

theorem castAppenders_none (y : Yaml) : castAppenders y none = some [] := rfl

theorem castAppenders_nodes (y : Yaml) (appenders : List LogAppenderDefine) :
    castAppenders y (some (.seq (appenders.map appenderNode))) =
      some (appenders.filterMap LogAppenderDefine.normal) := by
  have hloop : (List.range (appenders.map appenderNode).length).mapM
      (fun x => castAppender y (appenders.map appenderNode)[x]?) =
        some (appenders.map LogAppenderDefine.normal) := by
    rw [mapM_range (castAppender y), List.mapM_map]
    exact mapM_eq_map fun a _ => castAppender_appenderNode y a
  rw [castAppenders]
  simp only [Yaml.size, Yaml.index]
  rw [hloop, Option.map_some, List.reduceOption, List.filterMap_map]
  rfl

theorem castDefine_printDefine (y : Yaml) {d : LogDefine} (h : y.Returns (defineNode d)) :
    castDefine y (printDefine y d) = some d.normal := by
  have hload : y.load (printDefine y d) = some (defineNode d) := h
  obtain ⟨name, level, formatter, appenders⟩ := d
  have hread := castAppenders_nodes y appenders
  unfold castDefine
  rw [hload]
  by_cases hl : level = .unknow <;> by_cases hf : formatter = [] <;> by_cases ha : appenders = [] <;>
    simp +decide [defineNode, member, LogDefine.normal, hl, hf, ha, hread, castAppenders_none,
      fromString_toString, fromString_nil]

/-! ## What is kept -/

theorem LogAppenderDefine.normal_eq_iff {a : LogAppenderDefine} : a.normal = some a ↔ a.Kept := by
  obtain ⟨type, level, formatter, file⟩ := a
  unfold LogAppenderDefine.normal LogAppenderDefine.Kept
  by_cases h1 : type = 1
  · subst h1
    simp [eq_comm]
  · by_cases h2 : type = 2
    · subst h2
      simp [eq_comm]
    · simp [h1, h2]

theorem LogDefine.normal_eq_iff {i : LogDefine} : i.normal = i ↔ i.Kept := by
  obtain ⟨name, level, formatter, appenders⟩ := i
  unfold LogDefine.normal LogDefine.Kept
  rw [LogDefine.mk.injEq]
  have happenders : appenders.filterMap LogAppenderDefine.normal = appenders ↔ ∀ a ∈ appenders, a.Kept := by
    rw [filterMap_eq_self_iff]
    exact forall₂_congr fun a _ => LogAppenderDefine.normal_eq_iff
  have hlevel : (if level = .never then .unknow else level) = level ↔ level ≠ .never := by
    cases level <;> decide
  simp [happenders, hlevel]

/-- What is read has a type, and no more than is printed. -/
theorem kept_of_castAppender {y : Yaml} {n : Option Node} {a : LogAppenderDefine}
    (h : castAppender y n = some (some a)) : a.Kept := by
  unfold castAppender at h
  obtain ⟨type, -, h⟩ := Option.bind_eq_some_iff.mp h
  cases type with
  | none => cases h
  | some type =>
    obtain ⟨text, -, h⟩ := Option.bind_eq_some_iff.mp h
    split at h
    · obtain ⟨file, -, h⟩ := Option.bind_eq_some_iff.mp h
      cases file with
      | none => cases h
      | some file =>
        obtain ⟨path, -, h⟩ := Option.bind_eq_some_iff.mp h
        obtain ⟨member, -, h⟩ := Option.bind_eq_some_iff.mp h
        obtain ⟨formatter, -, h⟩ := Option.bind_eq_some_iff.mp h
        cases h
        exact ⟨rfl, Or.inl rfl⟩
    · split at h
      · obtain ⟨member, -, h⟩ := Option.bind_eq_some_iff.mp h
        obtain ⟨formatter, -, h⟩ := Option.bind_eq_some_iff.mp h
        cases h
        exact ⟨rfl, Or.inr ⟨rfl, rfl⟩⟩
      · cases h

theorem kept_of_castDefine {y : Yaml} {v : Str} {d : LogDefine} (h : castDefine y v = some d) :
    d.Kept := by
  unfold castDefine at h
  obtain ⟨n, -, h⟩ := Option.bind_eq_some_iff.mp h
  obtain ⟨name, -, h⟩ := Option.bind_eq_some_iff.mp h
  cases name with
  | none => cases h
  | some name =>
    obtain ⟨text, -, h⟩ := Option.bind_eq_some_iff.mp h
    obtain ⟨levelNode, -, h⟩ := Option.bind_eq_some_iff.mp h
    obtain ⟨level, -, h⟩ := Option.bind_eq_some_iff.mp h
    obtain ⟨formatterNode, -, h⟩ := Option.bind_eq_some_iff.mp h
    obtain ⟨formatter, -, h⟩ := Option.bind_eq_some_iff.mp h
    obtain ⟨appendersNode, -, h⟩ := Option.bind_eq_some_iff.mp h
    obtain ⟨appenders, happenders, h⟩ := Option.bind_eq_some_iff.mp h
    cases h
    refine ⟨fromString_ne_never level, fun a ha => ?_⟩
    unfold castAppenders at happenders
    cases appendersNode with
    | none =>
      cases happenders
      cases ha
    | some node =>
      obtain ⟨read, hread, rfl⟩ := Option.map_eq_some_iff.mp happenders
      rw [List.reduceOption_mem_iff] at ha
      refine of_mem_mapM (p := fun b => ∀ a, b = some a → a.Kept) (fun x b hb a hab => ?_) hread _ ha a rfl
      exact kept_of_castAppender (hab ▸ hb)

/-! ## The set -/

namespace LogDefines

theorem ext_defs {s t : LogDefines} (h : s.defs = t.defs) : s = t := by
  cases s
  cases t
  cases h
  rfl

theorem mem_place_iff {i k : LogDefine} {l : List LogDefine} : k ∈ place i l ↔ k = i ∨ k ∈ l := by
  rw [(place_perm i l).mem_iff, List.mem_cons]

theorem place_sorted {i : LogDefine} {l : List LogDefine} (hi : i.name ∉ l.map LogDefine.name)
    (h : l.Pairwise fun a b => a.name < b.name) : (place i l).Pairwise fun a b => a.name < b.name := by
  induction l with
  | nil => exact List.pairwise_singleton _ _
  | cons k l ih =>
    rw [List.map_cons, List.mem_cons, not_or] at hi
    obtain ⟨hk, hl⟩ := List.pairwise_cons.mp h
    rw [place]
    split
    · next hlt =>
      refine List.pairwise_cons.mpr ⟨fun b hb => ?_, ih hi.2 hl⟩
      rcases mem_place_iff.mp hb with rfl | hb
      · exact hlt
      · exact hk b hb
    · next hnlt =>
      have hlt : i.name < k.name := by
        by_contra hni
        exact hi.1 (List.le_antisymm hnlt hni)
      refine List.pairwise_cons.mpr ⟨fun b hb => ?_, h⟩
      rcases List.mem_cons.mp hb with rfl | hb
      · exact hlt
      · exact List.lt_trans hlt (hk b hb)

theorem place_last {i : LogDefine} {l : List LogDefine} (h : ∀ k ∈ l, k.name < i.name) :
    place i l = l ++ [i] := by
  induction l with
  | nil => rfl
  | cons k l ih =>
    rw [place, if_pos (h k List.mem_cons_self), ih fun j hj => h j (List.mem_cons_of_mem k hj)]
    rfl

theorem Sorted.insert {s : LogDefines} (h : s.Sorted) (i : LogDefine) : (s.insert i).Sorted := by
  unfold LogDefines.insert
  split
  · exact h
  · next hi => exact place_sorted hi h

theorem mem_insert {s : LogDefines} {i k : LogDefine} (h : k ∈ (s.insert i).defs) : k = i ∨ k ∈ s.defs := by
  unfold LogDefines.insert at h
  split at h
  · exact Or.inr h
  · exact mem_place_iff.mp h

theorem foldl_insert_spec {p : LogDefine → Prop} : ∀ {items : List LogDefine} {s : LogDefines}, s.Sorted →
    (∀ d ∈ s.defs, p d) → (∀ d ∈ items, p d) →
      (items.foldl insert s).Sorted ∧ ∀ d ∈ (items.foldl insert s).defs, p d
  | [], _, hs, hp, _ => ⟨hs, hp⟩
  | i :: items, s, hs, hp, hitems => by
    rw [List.foldl_cons]
    refine foldl_insert_spec (hs.insert i) (fun d hd => ?_) fun d hd => hitems d (List.mem_cons_of_mem i hd)
    rcases mem_insert hd with rfl | hd
    · exact hitems d List.mem_cons_self
    · exact hp d hd

/-- Elements that come in order go to the end. -/
theorem foldl_insert_sorted : ∀ {items : List LogDefine} {s : LogDefines},
    (s.defs ++ items).Pairwise (fun a b => a.name < b.name) →
      (items.foldl insert s).defs = s.defs ++ items
  | [], s, _ => (List.append_nil _).symm
  | i :: items, s, h => by
    have hlast : ∀ k ∈ s.defs, k.name < i.name :=
      fun k hk => (List.pairwise_append.mp h).2.2 k hk i List.mem_cons_self
    have hnew : i.name ∉ s.names := by
      intro hmem
      obtain ⟨k, hk, hname⟩ := List.mem_map.mp hmem
      exact List.lt_irrefl i.name (hname ▸ hlast k hk)
    have hinsert : (s.insert i).defs = s.defs ++ [i] := by
      rw [LogDefines.insert, dif_neg hnew]
      exact place_last hlast
    have happend : (s.insert i).defs ++ items = s.defs ++ i :: items := by
      rw [hinsert, List.append_assoc]
      rfl
    rw [List.foldl_cons, foldl_insert_sorted (by rwa [happend]), happend]

/-- The set that is left. -/
def normal (s : LogDefines) : LogDefines where
  defs := s.defs.map LogDefine.normal
  distinct := by
    rw [List.map_map]
    exact s.distinct

theorem normal_eq_iff {s : LogDefines} : s.normal = s ↔ ∀ i ∈ s.defs, i.Kept := by
  have hmap : s.normal = s ↔ s.defs.map LogDefine.normal = s.defs.map id := by
    rw [List.map_id]
    exact ⟨congrArg LogDefines.defs, fun h => ext_defs h⟩
  rw [hmap, List.map_inj_left]
  exact forall₂_congr fun i _ => LogDefine.normal_eq_iff

end LogDefines

/-! ## Sets as text -/

/-- The document of a set. -/
def definesNode (s : LogDefines) : Node := seqNode (s.defs.map defineNode)

theorem size_seqNode (items : List Node) : Yaml.size (seqNode items) = items.length := by
  cases items <;> rfl

theorem index_seqNode (y : Yaml) (items : List Node) (i : Nat) :
    y.index i (seqNode items) = items[i]? := by
  cases items <;> rfl

/-- The text of the set is read as what is left of it. -/
theorem castDefines_printDefines {y : Yaml} {s : LogDefines} (hs : s.Sorted)
    (hdefs : ∀ d ∈ s.defs, y.Returns (defineNode d)) (hset : y.Returns (definesNode s)) :
    (printDefines y s).bind (castDefines y) = some s.normal := by
  have hitems : (s.defs.mapM fun i => y.load (printDefine y i)) = some (s.defs.map defineNode) :=
    mapM_eq_map hdefs
  have hcasts : ((List.range (s.defs.map defineNode).length).mapM fun i =>
      castDefine y (y.emit (s.defs.map defineNode)[i]?)) = some (s.defs.map LogDefine.normal) := by
    rw [mapM_range fun n => castDefine y (y.emit n), List.mapM_map]
    exact mapM_eq_map fun d hd => castDefine_printDefine y (hdefs d hd)
  have hprint : printDefines y s = some (y.emit (some (definesNode s))) := by
    rw [printDefines, hitems]
    rfl
  have hload : y.load (y.emit (some (definesNode s))) = some (definesNode s) := hset
  rw [hprint, Option.bind_some, castDefines, hload, definesNode]
  simp only [size_seqNode, index_seqNode, Option.bind_eq_bind, Option.bind_some, hcasts]
  -- the names come in order
  have hinsert : ((s.defs.map LogDefine.normal).foldl LogDefines.insert .empty).defs =
      s.defs.map LogDefine.normal := by
    refine LogDefines.foldl_insert_sorted ?_
    exact List.pairwise_map.mpr hs
  exact congrArg some (LogDefines.ext_defs hinsert)

/-- **Printing a set and reading it.** For every set of definitions whose
documents the library loads as it prints them, the text is read as the
same set exactly if no definition has the level `NEVER`, every appender is
one for a file or for the console, and no appender has a level, or a file
that its type does not use. -/
theorem printed_iff {y : Yaml} {s : LogDefines} (hs : s.Sorted)
    (hdefs : ∀ d ∈ s.defs, y.Returns (defineNode d)) (hset : y.Returns (definesNode s)) :
    (printDefines y s).bind (castDefines y) = some s ↔ ∀ i ∈ s.defs, i.Kept := by
  rw [castDefines_printDefines hs hdefs hset, Option.some.injEq, LogDefines.normal_eq_iff]

/-- A logger that writes to the console. -/
def consoleDefine : LogDefine := ⟨str "system", .info, [], [⟨2, .unknow, [], []⟩]⟩

def consoleDefines : LogDefines := ⟨[consoleDefine], List.nodup_singleton _⟩

def consoleText : Str := str "name: system\nlevel: INFO\nappenders:\n  - type: StdoutLogAppender"

def consoleSetText : Str :=
  str "- name: system\n  level: INFO\n  appenders:\n    - type: StdoutLogAppender"

/-- What the library makes of these two texts and of their documents. -/
def consoleYaml : Yaml where
  load v :=
    if v = consoleText then some (defineNode consoleDefine)
    else if v = consoleSetText then some (definesNode consoleDefines)
    else none
  emit
    | some (.map _) => consoleText
    | some (.seq _) => consoleSetText
    | _ => []
  mapAt _ _ := none
  nullString := none

theorem consoleYaml_returns :
    consoleYaml.Returns (defineNode consoleDefine) ∧ consoleYaml.Returns (definesNode consoleDefines) := by
  have hne : consoleSetText ≠ consoleText := by decide
  constructor
  · show (if consoleText = consoleText then some (defineNode consoleDefine)
      else if consoleText = consoleSetText then some (definesNode consoleDefines) else none) = _
    rw [if_pos rfl]
  · show (if consoleSetText = consoleText then some (defineNode consoleDefine)
      else if consoleSetText = consoleSetText then some (definesNode consoleDefines) else none) = _
    rw [if_neg hne, if_pos rfl]

theorem printed_console :
    (printDefines consoleYaml consoleDefines).bind (castDefines consoleYaml) = some consoleDefines := by
  have hsorted : consoleDefines.Sorted := List.pairwise_singleton _ _
  refine (printed_iff hsorted ?_ consoleYaml_returns.2).mpr ?_
  · intro d hd
    rw [List.mem_singleton.mp hd]
    exact consoleYaml_returns.1
  · intro i hi
    rw [List.mem_singleton.mp hi]
    refine ⟨nofun, fun a ha => ?_⟩
    rw [List.mem_singleton.mp ha]
    exact ⟨rfl, Or.inr ⟨rfl, rfl⟩⟩

/-- **What is read.** Whatever the library makes of a text, a set that is
read from it is in order and has nothing that would not be read back. -/
theorem accepted_wellFormed {y : Yaml} {v : Str} {s : LogDefines} (h : castDefines y v = some s) :
    s.Sorted ∧ ∀ i ∈ s.defs, i.Kept := by
  unfold castDefines at h
  obtain ⟨node, -, h⟩ := Option.bind_eq_some_iff.mp h
  obtain ⟨items, hitems, h⟩ := Option.bind_eq_some_iff.mp h
  cases h
  refine LogDefines.foldl_insert_spec List.Pairwise.nil nofun ?_
  exact of_mem_mapM (fun _ _ hcast => kept_of_castDefine hcast) hitems

theorem accepted_console : castDefines consoleYaml consoleSetText = some consoleDefines ∧
    consoleDefines.Sorted ∧ ∀ i ∈ consoleDefines.defs, i.Kept := by
  have hcast : castDefines consoleYaml consoleSetText = some consoleDefines := by decide
  exact ⟨hcast, accepted_wellFormed hcast⟩

end TinyTcp.Log
