/-
TinyTcp.Config.Registry — `Config` of `src/config.h` and `src/config.cc`:
the variables of a program by their names, and what loading a YAML
document does to them.

The types of variables are the values of `κ`: `k` stands for `ConfigVar<T k>`,
with its `FromStr`. Variables live in a list, which only grows, and a
`shared_ptr` is a position in it. A document is what the YAML library makes
of a text; `emit` is its `operator<<`. `none` is an exception or a null
pointer in a callback; each call is one step under the lock of the registry.

`lookUp_stable` is about the registry in any run: a name keeps its variable
and its type. `loadFromYaml_eq` says what a load does from every state
that a run can reach: a variable gets the value of the last node, in the
order of the document, whose keys joined by dots are its name and whose
text converts, and nothing else changes.
-/
import TinyTcp.Config.ConfigVar
import TinyTcp.Lib.Document
import TinyTcp.Lib.Run
import TinyTcp.Lib.Decimal
import TinyTcp.Log.Formatter
import Mathlib.Logic.Function.Basic
import Mathlib.Data.List.Pairwise

namespace TinyTcp.Config

open TinyTcp.Lib TinyTcp.Log

/-! ## Documents -/

/-- `YAML::Node` -/
abbrev Node := Doc Str

/-- `Scalar()`, which is empty where there is none. -/
def scalarOf : Node → Str
  | .scalar s => s
  | _ => []

/-- The name of a member of what `pre` names. -/
def memberName (pre key : Str) : Str := if pre = [] then key else pre ++ ch '.' :: key

mutual

/-- `list_all_member`; an invalid prefix is only logged. -/
def listAllMember (pre : Str) : Node → List (Str × Node) → List (Str × Node)
  | .null, output => output ++ [(pre, .null)]
  | .scalar s, output => output ++ [(pre, .scalar s)]
  | .seq items, output => output ++ [(pre, .seq items)]
  | .map entries, output => listEntries pre entries (output ++ [(pre, .map entries)])

/-- Its loop over a map. -/
def listEntries (pre : Str) : List (Node × Node) → List (Str × Node) → List (Str × Node)
  | [], output => output
  | (k, v) :: rest, output =>
      listEntries pre rest (listAllMember (memberName pre (scalarOf k)) v output)

end

/-- What `load_from_yaml` gives to `from_string`. -/
def nodeText (emit : Node → Str) : Node → Str
  | .scalar s => s
  | node => emit node

/-! ## The registry -/

variable {κ : Type} {T : κ → Type} {σ : Type}

abbrev VarPtr := Nat

/-- An object of a class `ConfigVar<T type>`. -/
structure Var (T : κ → Type) (σ : Type) where
  name : Str
  type : κ
  var : ConfigVar (T type) σ

/-- `s_datas`, the objects, and the `s_func_id` of each type. -/
structure Registry (T : κ → Type) (σ : Type) where
  datas : Str → Option VarPtr
  vars : List (Var T σ)
  funcId : κ → Nat

def nameChars : Str := str "abcdefghijklmnopqrstuvwxyzABCDEFGHIJKLMNOPQRSTUVWXYZ._0123456789"

/-- `find_first_not_of` finds nothing. -/
def validName (name : Str) : Bool := name.all (· ∈ nameChars)

/-- What `look_up` returns, or that it throws. -/
inductive Found where
  | var (p : VarPtr)
  | null
  | invalidArgument
  deriving DecidableEq

namespace Registry

def empty : Registry T σ := ⟨fun _ => none, [], fun _ => 0⟩

variable [DecidableEq κ] (r : Registry T σ)

/-- `look_up` with a default value. -/
def lookUp (name : Str) (k : κ) (defaultValue : T k) : Found × Registry T σ :=
  match r.datas name with
  | some p =>
      match r.vars[p]? with
      | some v => if v.type = k then (.var p, r) else (.null, r)
      | none => (.null, r)
  | none =>
      if validName name then
        (.var r.vars.length,
          { r with
            datas := Function.update r.datas name (some r.vars.length)
            vars := r.vars ++ [⟨name, k, ⟨defaultValue, []⟩⟩] })
      else (.invalidArgument, r)

/-- `look_up` without one. -/
def find (name : Str) (k : κ) : Option VarPtr := do
  let p ← r.datas name
  let v ← r.vars[p]?
  if v.type = k then some p else none

/-- `look_up_base` -/
def lookUpBase (name : Str) : Option VarPtr := r.datas name

/-- A call on an object, and what it makes of the state outside. -/
def withVar (p : VarPtr) (call : (v : Var T σ) → Option (ConfigVar (T v.type) σ × σ)) :
    Option (Registry T σ × σ) :=
  match r.vars[p]? with
  | none => none
  | some v => (call v).map fun (var, s) => ({ r with vars := r.vars.set p { v with var := var } }, s)

/-- `add_listener` -/
def addListener (p : VarPtr) (k : κ) (cb : T k → T k → σ → Option σ) (s : σ) :
    Option (Registry T σ × σ) :=
  (r.withVar p fun v =>
    if h : v.type = k then some (v.var.addListener (r.funcId k) (h ▸ cb), s) else none).map
  fun (r, s) => ({ r with funcId := Function.update r.funcId k (r.funcId k + 1) }, s)

def delListener (p : VarPtr) (key : Nat) (s : σ) : Option (Registry T σ × σ) :=
  r.withVar p fun v => some (v.var.delListener key, s)

def clearListener (p : VarPtr) (s : σ) : Option (Registry T σ × σ) :=
  r.withVar p fun v => some (v.var.clearListener, s)

variable [∀ k, DecidableEq (T k)]

/-- `set_value`, through a pointer to a `ConfigVar<T k>`. -/
def setValue (p : VarPtr) (k : κ) (val : T k) (s : σ) : Option (Registry T σ × σ) :=
  r.withVar p fun v => if h : v.type = k then v.var.setValue (h ▸ val) s else none

variable (fromStr : (k : κ) → Str → Option (T k)) (emit : Node → Str)

/-- `from_string` -/
def fromString (p : VarPtr) (val : Str) (s : σ) : Option (Registry T σ × σ) :=
  r.withVar p fun v => (v.var.fromString (fromStr v.type) val s).map Prod.snd

/-- The body of the loop of `load_from_yaml`. -/
def loadNode : Registry T σ × σ → Str × Node → Option (Registry T σ × σ)
  | (r, s), (key, node) =>
      if key = [] then some (r, s)
      else
        match r.lookUpBase key with
        | none => some (r, s)
        | some var => r.fromString fromStr var (nodeText emit node) s

def loadFromYaml (root : Node) (s : σ) : Option (Registry T σ × σ) :=
  (listAllMember [] root []).foldlM (loadNode fromStr emit) (r, s)

/-! ## Runs -/

inductive Op (T : κ → Type) (σ : Type) where
  | lookUp (name : Str) (k : κ) (defaultValue : T k)
  | setValue (p : VarPtr) (k : κ) (val : T k)
  | fromString (p : VarPtr) (val : Str)
  | addListener (p : VarPtr) (k : κ) (cb : T k → T k → σ → Option σ)
  | delListener (p : VarPtr) (key : Nat)
  | clearListener (p : VarPtr)
  | load (root : Node)

/-- A call; one of `look_up` goes on after an exception. -/
def step : Registry T σ × σ → Op T σ → Option (Registry T σ × σ)
  | (r, s), .lookUp name k defaultValue => some ((r.lookUp name k defaultValue).2, s)
  | (r, s), .setValue p k val => r.setValue p k val s
  | (r, s), .fromString p val => r.fromString fromStr p val s
  | (r, s), .addListener p k cb => r.addListener p k cb s
  | (r, s), .delListener p key => r.delListener p key s
  | (r, s), .clearListener p => r.clearListener p s
  | (r, s), .load root => r.loadFromYaml fromStr emit root s

end Registry

namespace Registry

/-! ## What every run keeps -/

/-- Each name has an object of that name, each object is that of its name,
and the keys of its callbacks are in order and have been given out. -/
structure Wf (r : Registry T σ) : Prop where
  found : ∀ name p, r.datas name = some p → ∃ v : Var T σ, r.vars[p]? = some v ∧ v.name = name
  owned : ∀ (p : VarPtr) (v : Var T σ), r.vars[p]? = some v → r.datas v.name = some p
  valid : ∀ name p, r.datas name = some p → validName name = true
  keys : ∀ v ∈ r.vars, (v.var.cbs.map Prod.fst).Pairwise (· < ·) ∧
    ∀ key ∈ v.var.cbs.map Prod.fst, key ≤ r.funcId v.type

/-- Names keep their objects, and objects their names and types. -/
structure Extends (r r' : Registry T σ) : Prop where
  datas : ∀ name p, r.datas name = some p → r'.datas name = some p
  vars : ∀ (p : VarPtr) (v : Var T σ), r.vars[p]? = some v →
    ∃ v' : Var T σ, r'.vars[p]? = some v' ∧ v'.name = v.name ∧ v'.type = v.type

theorem empty_wf : (empty : Registry T σ).Wf where
  found := nofun
  owned := nofun
  valid := nofun
  keys := nofun

variable {r r' r'' : Registry T σ} {s s' : σ} {p : VarPtr} {name : Str} {k : κ}

theorem Extends.refl (r : Registry T σ) : Extends r r := ⟨fun _ _ h => h, fun _ v h => ⟨v, h, rfl, rfl⟩⟩

theorem Extends.trans (h : Extends r r') (h' : Extends r' r'') : Extends r r'' := by
  refine ⟨fun name p hp => h'.datas name p (h.datas name p hp), fun p v hv => ?_⟩
  obtain ⟨v', hv', hname, htype⟩ := h.vars p v hv
  obtain ⟨v'', hv'', hname', htype'⟩ := h'.vars p v' hv'
  exact ⟨v'', hv'', hname'.trans hname, htype'.trans htype⟩

/-- Two names have two objects. -/
theorem Wf.inj (h : r.Wf) {other : Str} (hp : r.datas name = some p) (hq : r.datas other = some p) :
    name = other := by
  obtain ⟨v, hv, rfl⟩ := h.found name p hp
  obtain ⟨v', hv', rfl⟩ := h.found other p hq
  cases hv.symm.trans hv'
  rfl

/-- An object changes, but not its name and type. -/
theorem Wf.set (h : r.Wf) {v : Var T σ} (hv : r.vars[p]? = some v) {var : ConfigVar (T v.type) σ}
    {funcId : κ → Nat} (hmono : ∀ k, r.funcId k ≤ funcId k)
    (hkeys : (var.cbs.map Prod.fst).Pairwise (· < ·) ∧
      ∀ key ∈ var.cbs.map Prod.fst, key ≤ funcId v.type) :
    Wf { r with vars := r.vars.set p { v with var := var }, funcId := funcId } ∧
      Extends r { r with vars := r.vars.set p { v with var := var }, funcId := funcId } := by
  have hlt : p < r.vars.length := (List.getElem?_eq_some_iff.mp hv).1
  have hself : (r.vars.set p { v with var := var })[p]? = some { v with var := var } :=
    List.getElem?_set_self hlt
  have hother : ∀ q, q ≠ p → (r.vars.set p { v with var := var })[q]? = r.vars[q]? :=
    fun q hq => List.getElem?_set_ne (Ne.symm hq)
  constructor
  · refine ⟨fun name q hq => ?_, fun q w hw => ?_, h.valid, fun w hw => ?_⟩
    · obtain ⟨w, hw, hname⟩ := h.found name q hq
      by_cases heq : q = p
      · subst heq
        cases hv.symm.trans hw
        exact ⟨_, hself, hname⟩
      · exact ⟨w, (hother q heq).trans hw, hname⟩
    · by_cases heq : q = p
      · subst heq
        cases hself.symm.trans hw
        exact h.owned q v hv
      · exact h.owned q w ((hother q heq).symm.trans hw)
    · rcases List.mem_or_eq_of_mem_set hw with hw | rfl
      · exact ⟨(h.keys w hw).1, fun key hkey => Nat.le_trans ((h.keys w hw).2 key hkey) (hmono _)⟩
      · exact hkeys
  · refine ⟨fun _ _ hq => hq, fun q w hw => ?_⟩
    by_cases heq : q = p
    · subst heq
      cases hv.symm.trans hw
      exact ⟨_, hself, rfl, rfl⟩
    · exact ⟨w, (hother q heq).trans hw, rfl, rfl⟩

/-- A call on an object, by what it makes of it. -/
theorem withVar_eq_some {call : (v : Var T σ) → Option (ConfigVar (T v.type) σ × σ)}
    {result : Registry T σ × σ} (h : r.withVar p call = some result) :
    ∃ v var s', r.vars[p]? = some v ∧ call v = some (var, s') ∧
      result = ({ r with vars := r.vars.set p { v with var := var } }, s') := by
  unfold withVar at h
  split at h
  · cases h
  · next v hv =>
    obtain ⟨⟨var, s'⟩, hcall, rfl⟩ := Option.map_eq_some_iff.mp h
    exact ⟨v, var, s', hv, hcall, rfl⟩

/-- A call that keeps the callbacks, or takes some away. -/
theorem Wf.withVar (h : r.Wf) {call : (v : Var T σ) → Option (ConfigVar (T v.type) σ × σ)}
    (hcall : ∀ v var s', call v = some (var, s') → var.cbs.Sublist v.var.cbs)
    (hrun : r.withVar p call = some (r', s')) : r'.Wf ∧ Extends r r' := by
  obtain ⟨v, var, s₁, hv, hvar, heq⟩ := withVar_eq_some hrun
  cases heq
  have hsub := (hcall v var s' hvar).map Prod.fst
  have hkeys := h.keys v (List.mem_of_getElem? hv)
  refine h.set hv (fun _ => Nat.le_refl _) ⟨hkeys.1.sublist hsub, fun key hkey => ?_⟩
  exact hkeys.2 key (hsub.subset hkey)

/-- A new variable goes to the end of the objects. -/
theorem Wf.register (h : r.Wf) (hp : r.datas name = none) (hname : validName name = true) (k : κ)
    (defaultValue : T k) {r' : Registry T σ} (hr' : r' = { r with
      datas := Function.update r.datas name (some r.vars.length)
      vars := r.vars ++ [⟨name, k, ⟨defaultValue, []⟩⟩] }) : r'.Wf ∧ Extends r r' := by
  subst hr'
  have hlast : (r.vars ++ [(⟨name, k, ⟨defaultValue, []⟩⟩ : Var T σ)])[r.vars.length]? =
      some ⟨name, k, ⟨defaultValue, []⟩⟩ := List.getElem?_concat_length
  have hold : ∀ (q : VarPtr) (w : Var T σ), r.vars[q]? = some w →
      (r.vars ++ [(⟨name, k, ⟨defaultValue, []⟩⟩ : Var T σ)])[q]? = some w :=
    fun q w hw => by rw [List.getElem?_append_left (List.getElem?_eq_some_iff.mp hw).1, hw]
  have hne : ∀ {other q}, r.datas other = some q → other ≠ name := by
    rintro other q hq rfl
    rw [hp] at hq
    cases hq
  constructor
  · refine ⟨fun other q hq => ?_, fun q w hw => ?_, fun other q hq => ?_, fun w hw => ?_⟩
    · by_cases heq : other = name
      · subst heq
        cases (Function.update_self ..).symm.trans hq
        exact ⟨_, hlast, rfl⟩
      · obtain ⟨w, hw, hname⟩ := h.found other q ((Function.update_of_ne heq ..).symm.trans hq)
        exact ⟨w, hold q w hw, hname⟩
    · rcases Nat.lt_trichotomy q r.vars.length with hlt | rfl | hgt
      · have hw' : r.vars[q]? = some w := by rwa [List.getElem?_append_left hlt] at hw
        have howned := h.owned q w hw'
        exact (Function.update_of_ne (hne howned) ..).trans howned
      · cases hlast.symm.trans hw
        exact Function.update_self ..
      · have hnone : (r.vars ++ [(⟨name, k, ⟨defaultValue, []⟩⟩ : Var T σ)])[q]? = none := by
          rw [List.getElem?_eq_none_iff, List.length_append]
          exact hgt
        cases hnone.symm.trans hw
    · by_cases heq : other = name
      · exact heq ▸ hname
      · exact h.valid other q ((Function.update_of_ne heq ..).symm.trans hq)
    · rcases List.mem_append.mp hw with hw | hw
      · exact h.keys w hw
      · rw [List.mem_singleton.mp hw]
        exact ⟨List.Pairwise.nil, nofun⟩
  · refine ⟨fun other q hq => (Function.update_of_ne (hne hq) ..).trans hq, fun q w hw => ?_⟩
    exact ⟨w, hold q w hw, rfl, rfl⟩

variable [DecidableEq κ]

/-- A look-up that finds or makes nothing leaves the registry alone. -/
theorem lookUp_of_found {v : Var T σ} (hp : r.datas name = some p) (hv : r.vars[p]? = some v) (k : κ)
    (defaultValue : T k) :
    r.lookUp name k defaultValue = (if v.type = k then .var p else .null, r) := by
  rw [lookUp, hp]
  dsimp only
  rw [hv]
  dsimp only
  split
  · rfl
  · rfl

theorem lookUp_invalid (hp : r.datas name = none) (hname : validName name = false) (k : κ)
    (defaultValue : T k) : r.lookUp name k defaultValue = (.invalidArgument, r) := by
  rw [lookUp, hp]
  simp [hname]

theorem lookUp_new (hp : r.datas name = none) (hname : validName name = true) (k : κ)
    (defaultValue : T k) : r.lookUp name k defaultValue = (.var r.vars.length,
      { r with
        datas := Function.update r.datas name (some r.vars.length)
        vars := r.vars ++ [⟨name, k, ⟨defaultValue, []⟩⟩] }) := by
  rw [lookUp, hp]
  simp [hname]

theorem Wf.lookUp (h : r.Wf) (name : Str) (k : κ) (defaultValue : T k) :
    (r.lookUp name k defaultValue).2.Wf ∧ Extends r (r.lookUp name k defaultValue).2 := by
  cases hp : r.datas name with
  | some p =>
    obtain ⟨v, hv, -⟩ := h.found name p hp
    rw [lookUp_of_found hp hv]
    exact ⟨h, .refl r⟩
  | none =>
    cases hname : validName name with
    | true =>
      rw [lookUp_new hp hname]
      exact h.register hp hname k defaultValue rfl
    | false =>
      rw [lookUp_invalid hp hname]
      exact ⟨h, .refl r⟩

theorem Wf.addListener (h : r.Wf) {cb : T k → T k → σ → Option σ}
    (hrun : r.addListener p k cb s = some (r', s')) : r'.Wf ∧ Extends r r' := by
  obtain ⟨⟨r₁, s₁⟩, hcall, heq⟩ := Option.map_eq_some_iff.mp hrun
  cases heq
  obtain ⟨v, var, s₂, hv, hvar, heq⟩ := withVar_eq_some hcall
  cases heq
  split at hvar
  · next htype =>
    subst htype
    cases hvar
    obtain ⟨hsorted, hle⟩ := h.keys v (List.mem_of_getElem? hv)
    refine h.set hv (fun k => ?_) ?_
    · by_cases hk : k = v.type
      · rw [hk, Function.update_self]
        exact Nat.le_succ _
      · exact Nat.le_of_eq (Function.update_of_ne hk ..).symm
    · rw [ConfigVar.addListener, List.map_append, Function.update_self]
      refine ⟨List.pairwise_append.mpr ⟨hsorted, List.pairwise_singleton _ _, ?_⟩, ?_⟩
      · intro key hkey key' hkey'
        rw [List.map_singleton, List.mem_singleton] at hkey'
        rw [hkey']
        exact Nat.lt_succ_of_le (hle key hkey)
      · intro key hkey
        rcases List.mem_append.mp hkey with hkey | hkey
        · exact Nat.le_succ_of_le (hle key hkey)
        · rw [List.map_singleton, List.mem_singleton] at hkey
          exact Nat.le_of_eq hkey
  · cases hvar

variable [∀ k, DecidableEq (T k)] {fromStr : (k : κ) → Str → Option (T k)} {emit : Node → Str}

omit [DecidableEq κ] in
theorem Wf.fromString (h : r.Wf) {val : Str} (hrun : r.fromString fromStr p val s = some (r', s')) :
    r'.Wf ∧ Extends r r' := by
  refine h.withVar (fun v var s₁ hcall => ?_) hrun
  obtain ⟨⟨ok, var', s₂⟩, hvar, heq⟩ := Option.map_eq_some_iff.mp hcall
  cases heq
  unfold ConfigVar.fromString at hvar
  split at hvar
  · cases hvar
    exact List.Sublist.refl _
  · obtain ⟨⟨var', s₂⟩, hset, heq⟩ := Option.map_eq_some_iff.mp hvar
    cases heq
    rw [ConfigVar.setValue_spec _ hset]

theorem Wf.setValue (h : r.Wf) {val : T k} (hrun : r.setValue p k val s = some (r', s')) :
    r'.Wf ∧ Extends r r' := by
  refine h.withVar (fun v var s₁ hcall => ?_) hrun
  split at hcall
  · rw [ConfigVar.setValue_spec _ hcall]
  · cases hcall

omit [DecidableEq κ] in
theorem Wf.loadNode (h : r.Wf) {key : Str} {node : Node}
    (hrun : loadNode fromStr emit (r, s) (key, node) = some (r', s')) : r'.Wf ∧ Extends r r' := by
  rw [Registry.loadNode] at hrun
  split at hrun
  · cases hrun
    exact ⟨h, .refl _⟩
  · split at hrun
    · cases hrun
      exact ⟨h, .refl _⟩
    · exact h.fromString hrun

omit [DecidableEq κ] in
theorem Wf.loadNodes : ∀ {nodes : List (Str × Node)} {r : Registry T σ} {s : σ}, r.Wf →
    nodes.foldlM (Registry.loadNode fromStr emit) (r, s) = some (r', s') → r'.Wf ∧ Extends r r'
  | [], r, s, h, hrun => by
    cases hrun
    exact ⟨h, .refl _⟩
  | (key, node) :: nodes, r, s, h, hrun => by
    obtain ⟨⟨r₁, s₁⟩, hnode, hrest⟩ := Option.bind_eq_some_iff.mp hrun
    have hfirst := h.loadNode hnode
    obtain ⟨hwf, hext⟩ := Wf.loadNodes hfirst.1 hrest
    exact ⟨hwf, hfirst.2.trans hext⟩

/-- Each call keeps the registry well-formed, its names and its objects. -/
theorem Wf.step (h : r.Wf) {op : Op T σ} (hstep : step fromStr emit (r, s) op = some (r', s')) :
    r'.Wf ∧ Extends r r' := by
  cases op with
  | lookUp name k defaultValue =>
    cases hstep
    exact h.lookUp name k defaultValue
  | setValue p k val => exact h.setValue hstep
  | fromString p val => exact h.fromString hstep
  | addListener p k cb => exact h.addListener hstep
  | delListener p key =>
    refine h.withVar (fun v var s₁ hcall => ?_) hstep
    cases hcall
    exact List.filter_sublist
  | clearListener p =>
    refine h.withVar (fun v var s₁ hcall => ?_) hstep
    cases hcall
    exact List.nil_sublist _
  | load root => exact Wf.loadNodes h hstep

/-- So does each run. -/
theorem Wf.run (h : r.Wf) {ops : List (Op T σ)}
    (hrun : run (Registry.step fromStr emit) (r, s) ops = some (r', s')) : r'.Wf ∧ Extends r r' := by
  have hstep : ∀ (x : Registry T σ × σ) (op : Op T σ) (y : Registry T σ × σ), x.1.Wf ∧ Extends r x.1 →
      True → Registry.step fromStr emit x op = some y → y.1.Wf ∧ Extends r y.1 :=
    fun _ _ _ hx _ hop => ⟨(hx.1.step hop).1, hx.2.trans (hx.1.step hop).2⟩
  exact run_induction hstep ops (r, s) (r', s') ⟨h, .refl r⟩
    (along_of_forall (p := fun _ => True) (fun _ _ => trivial) _) hrun

/-- **Names keep their variables.** What `look_up` has returned for a name
and a type in some run is what it returns for them ever after, whatever the
default, and for no other name; for another type it returns null. -/
theorem lookUp_stable {s₀ s₁ s' : σ} {before after : List (Op T σ)} {defaultValue : T k}
    (hbefore : run (Registry.step fromStr emit) (empty, s₀) before = some (r, s₁))
    (hfound : r.lookUp name k defaultValue = (.var p, r'))
    (hafter : run (Registry.step fromStr emit) (r', s) after = some (r'', s')) :
    validName name = true ∧ r''.find name k = some p ∧
      (∀ d : T k, r''.lookUp name k d = (.var p, r'')) ∧
      (∀ k' ≠ k, r''.find name k' = none ∧ ∀ d : T k', r''.lookUp name k' d = (.null, r'')) ∧
      ∀ other ≠ name, ∀ (k' : κ) (d : T k'), (r''.lookUp other k' d).1 ≠ .var p := by
  have hwf := (empty_wf.run hbefore).1
  have hkept := hwf.lookUp name k defaultValue
  rw [hfound] at hkept
  -- what was found is the object of the name, and of the type asked for
  have hobject : ∃ v : Var T σ, r'.datas name = some p ∧ r'.vars[p]? = some v ∧ v.type = k := by
    cases hp : r.datas name with
    | some q =>
      obtain ⟨v, hv, -⟩ := hwf.found name q hp
      rw [lookUp_of_found hp hv] at hfound
      split at hfound
      · next htype =>
        cases hfound
        exact ⟨v, hp, hv, htype⟩
      · cases hfound
    | none =>
      cases hvalid : validName name with
      | true =>
        rw [lookUp_new hp hvalid] at hfound
        cases hfound
        exact ⟨_, Function.update_self .., List.getElem?_concat_length, rfl⟩
      | false =>
        rw [lookUp_invalid hp hvalid] at hfound
        cases hfound
  obtain ⟨v, hp, hv, htype⟩ := hobject
  obtain ⟨hwf', hext⟩ := hkept.1.run hafter
  obtain ⟨v', hv', -, htype'⟩ := hext.vars p v hv
  have hp' := hext.datas name p hp
  have hk : v'.type = k := htype'.trans htype
  refine ⟨hwf'.valid name p hp', ?_, fun d => ?_, fun k' hne => ⟨?_, fun d => ?_⟩, fun other hne k' d hother => ?_⟩
  · simp [find, hp', hv', hk]
  · rw [lookUp_of_found hp' hv', if_pos hk]
  · simp [find, hp', hv', hk, Ne.symm hne]
  · rw [lookUp_of_found hp' hv', if_neg (hk ▸ Ne.symm hne)]
  · cases hq : r''.datas other with
    | some q =>
      obtain ⟨w, hw, -⟩ := hwf'.found other q hq
      rw [lookUp_of_found hq hw] at hother
      dsimp only at hother
      split at hother
      · cases hother
        exact hne (hwf'.inj hq hp')
      · cases hother
    | none =>
      cases hvalid : validName other with
      | true =>
        rw [lookUp_new hq hvalid] at hother
        cases hother
        rw [List.getElem?_eq_none (Nat.le_refl _)] at hv'
        cases hv'
      | false =>
        rw [lookUp_invalid hq hvalid] at hother
        cases hother

/-- Two variables of the stack. -/
def stackVars : List (Op (fun _ : Bool => Nat) Unit) :=
  [.lookUp (str "tcp.msg_queue_size") true 1024, .lookUp (str "tcp.timer_msg_queue_size") true 128]

def stackDoc : Node :=
  .map [(.scalar (str "tcp"), .map [(.scalar (str "msg_queue_size"), .scalar (str "2048")),
    (.scalar (str "port"), .null)])]

/-- Decimal numbers. -/
def natFromStr (_ : Bool) (val : Str) : Option Nat :=
  if val ≠ [] ∧ val.all isDigit then some (value val) else none

theorem lookUp_stable_stackVars :
    ∃ r r' r'', run (Registry.step natFromStr fun _ => []) (empty, ()) stackVars = some (r, ()) ∧
      r.lookUp (str "tcp.msg_queue_size") true 0 = (.var 0, r') ∧
      run (Registry.step natFromStr fun _ => []) (r', ()) [.load stackDoc] = some (r'', ()) ∧
      r''.find (str "tcp.msg_queue_size") true = some 0 ∧
      r''.find (str "tcp.msg_queue_size") false = none := by
  have hruns : (run (Registry.step natFromStr fun _ => []) (empty, ()) stackVars).map (fun x =>
      ((x.1.lookUp (str "tcp.msg_queue_size") true 0).1,
        (run (Registry.step natFromStr fun _ => [])
          ((x.1.lookUp (str "tcp.msg_queue_size") true 0).2, ()) [.load stackDoc]).isSome)) =
      some (.var 0, true) := by decide
  obtain ⟨⟨r, u⟩, hbefore, heq⟩ := Option.map_eq_some_iff.mp hruns
  obtain ⟨hvar, hsome⟩ := Prod.mk.inj heq
  obtain ⟨⟨r'', u'⟩, hafter⟩ := Option.isSome_iff_exists.mp hsome
  have hfound : r.lookUp (str "tcp.msg_queue_size") true 0 =
      (.var 0, (r.lookUp (str "tcp.msg_queue_size") true 0).2) := Prod.ext hvar rfl
  have hstable := lookUp_stable hbefore hfound hafter
  exact ⟨r, _, r'', hbefore, hfound, hafter, hstable.2.1, (hstable.2.2.2.1 false nofun).1⟩

/-! ## What a load does -/

end Registry

/-- The name that keys on the way down the document give. -/
def dotted (keys : List Str) : Str := keys.foldl memberName []

/-- The nodes of a document under their names. -/
def members (root : Node) : List (Str × Node) := (root.walk scalarOf).map fun n => (dotted n.1, n.2)

mutual

theorem listAllMember_eq : ∀ (node : Node) (pre : Str) (output : List (Str × Node)),
    listAllMember pre node output =
      output ++ (node.walk scalarOf).map fun n => (n.1.foldl memberName pre, n.2)
  | .null, pre, output => by
    rw [listAllMember, Doc.walk]
    rfl
  | .scalar s, pre, output => by
    rw [listAllMember, Doc.walk]
    rfl
  | .seq items, pre, output => by
    rw [listAllMember, Doc.walk]
    rfl
  | .map entries, pre, output => by
    rw [listAllMember, Doc.walk, listEntries_eq, List.append_assoc]
    rfl

theorem listEntries_eq : ∀ (entries : List (Node × Node)) (pre : Str) (output : List (Str × Node)),
    listEntries pre entries output =
      output ++ (Doc.walkEntries scalarOf entries).map fun n => (n.1.foldl memberName pre, n.2)
  | [], pre, output => by
    rw [listEntries, Doc.walkEntries, List.map_nil, List.append_nil]
  | (k, v) :: rest, pre, output => by
    rw [listEntries, Doc.walkEntries, listAllMember_eq v, listEntries_eq rest, List.map_append,
      List.map_map, List.append_assoc]
    rfl

end

/-- The list is in the order of the document, and has each node once. -/
theorem listAllMember_root (root : Node) : listAllMember [] root [] = members root := by
  rw [listAllMember_eq, List.nil_append]
  rfl

theorem mem_members_iff {root node : Node} {name : Str} : (name, node) ∈ members root ↔
    ∃ keys, Doc.Leads scalarOf root keys node ∧ dotted keys = name := by
  unfold members
  constructor
  · intro h
    obtain ⟨⟨keys, node'⟩, hmem, heq⟩ := List.mem_map.mp h
    cases heq
    exact ⟨keys, (Doc.mem_walk_iff scalarOf).mp hmem, rfl⟩
  · rintro ⟨keys, hleads, rfl⟩
    exact List.mem_map.mpr ⟨(keys, node), (Doc.mem_walk_iff scalarOf).mpr hleads, rfl⟩

/-- A variable after these nodes have been loaded. -/
def Var.loaded (fromStr : (k : κ) → Str → Option (T k)) (emit : Node → Str) (nodes : List (Str × Node))
    (v : Var T σ) : Var T σ :=
  { v with
    var := { v.var with
      val := if v.name = [] then v.var.val
        else lastFor (fun node => fromStr v.type (nodeText emit node)) v.name nodes v.var.val } }

namespace Registry

variable {r : Registry T σ} {s : σ} {fromStr : (k : κ) → Str → Option (T k)} {emit : Node → Str}

/-- No callback fails. -/
def Calm (r : Registry T σ) : Prop :=
  ∀ v ∈ r.vars, ∀ i ∈ v.var.cbs, ∀ old new s, (i.2 old new s).isSome = true

theorem loaded_nil (v : Var T σ) : v.loaded fromStr emit [] = v := by
  unfold Var.loaded
  rw [lastFor_nil, ite_self]

theorem loaded_other {v : Var T σ} {key : Str} (h : v.name = [] ∨ key ≠ v.name) (node : Node)
    (nodes : List (Str × Node)) :
    v.loaded fromStr emit ((key, node) :: nodes) = v.loaded fromStr emit nodes := by
  unfold Var.loaded
  rcases h with h | h
  · rw [if_pos h, if_pos h]
  · rw [lastFor_cons_of_ne _ h]

/-- A node of the variable's name, first. -/
theorem loaded_self {v : Var T σ} (hname : v.name ≠ []) (node : Node) (nodes : List (Str × Node)) :
    v.loaded fromStr emit ((v.name, node) :: nodes) =
      Var.loaded fromStr emit nodes { v with
        var := { v.var with val := (fromStr v.type (nodeText emit node)).getD v.var.val } } := by
  unfold Var.loaded
  rw [if_neg hname, if_neg hname, lastFor_cons_self]

theorem Calm.loaded (h : r.Calm) (nodes : List (Str × Node)) :
    Calm { r with vars := r.vars.map (·.loaded fromStr emit nodes) } := by
  intro v hv
  obtain ⟨w, hw, rfl⟩ := List.mem_map.mp hv
  exact h w hw

/-- Node after node. -/
theorem loaded_loaded (v : Var T σ) (key : Str) (node : Node) (nodes : List (Str × Node)) :
    (v.loaded fromStr emit [(key, node)]).loaded fromStr emit nodes =
      v.loaded fromStr emit ((key, node) :: nodes) := by
  by_cases hname : v.name = []
  · rw [loaded_other (Or.inl hname), loaded_other (Or.inl hname), loaded_nil]
  · by_cases hkey : key = v.name
    · subst hkey
      rw [loaded_self hname, loaded_self hname, loaded_nil]
    · rw [loaded_other (Or.inr hkey), loaded_other (Or.inr hkey), loaded_nil]

variable [∀ k, DecidableEq (T k)]

/-- `from_string` on a variable whose callbacks do not fail. -/
theorem fromString_eq {p : VarPtr} {v : Var T σ} (hv : r.vars[p]? = some v)
    (hcbs : ∀ i ∈ v.var.cbs, ∀ old new s, (i.2 old new s).isSome = true) (val : Str) (s : σ) :
    ∃ s', r.fromString fromStr p val s = some ({ r with vars := r.vars.set p { v with
      var := { v.var with val := (fromStr v.type val).getD v.var.val } } }, s') := by
  unfold Registry.fromString withVar
  rw [hv]
  dsimp only
  unfold ConfigVar.fromString
  cases hval : fromStr v.type val with
  | none => exact ⟨s, rfl⟩
  | some x =>
    obtain ⟨s', hset⟩ := v.var.setValue_isSome hcbs x s
    refine ⟨s', ?_⟩
    dsimp only
    rw [hset]
    rfl

/-- One node: only the variable of its name is touched. -/
theorem loadNode_eq (hwf : r.Wf) (hcalm : r.Calm) (key : Str) (node : Node) (s : σ) :
    ∃ s', loadNode fromStr emit (r, s) (key, node) =
      some ({ r with vars := r.vars.map (·.loaded fromStr emit [(key, node)]) }, s') := by
  have hid : (key = [] ∨ r.lookUpBase key = none) →
      r.vars.map (·.loaded fromStr emit [(key, node)]) = r.vars := by
    intro hkey
    conv_rhs => rw [← List.map_id r.vars]
    refine List.map_congr_left fun v hv => ?_
    obtain ⟨p, hp⟩ := List.mem_iff_getElem?.mp hv
    have howned := hwf.owned p v hp
    refine (loaded_other ?_ node []).trans (loaded_nil v)
    rcases hkey with rfl | hkey
    · by_cases hname : v.name = []
      · exact Or.inl hname
      · exact Or.inr (Ne.symm hname)
    · right
      rintro rfl
      rw [lookUpBase, howned] at hkey
      cases hkey
  rw [loadNode]
  split
  · next hkey => exact ⟨s, by rw [hid (Or.inl hkey)]⟩
  · next hkey =>
    cases hbase : r.lookUpBase key with
    | none => exact ⟨s, by rw [hid (Or.inr hbase)]⟩
    | some p =>
      obtain ⟨v, hv, rfl⟩ := hwf.found key p hbase
      obtain ⟨s', hrun⟩ : ∃ s', r.fromString fromStr p (nodeText emit node) s = some (_, s') :=
        fromString_eq hv (hcalm v (List.mem_of_getElem? hv)) (nodeText emit node) s
      refine ⟨s', hrun.trans ?_⟩
      congr 3
      refine List.ext_getElem? fun q => ?_
      rw [List.getElem?_map]
      by_cases hq : q = p
      · subst hq
        rw [List.getElem?_set_self (List.getElem?_eq_some_iff.mp hv).1, hv, Option.map_some,
          loaded_self hkey, loaded_nil]
      · rw [List.getElem?_set_ne (Ne.symm hq)]
        cases hw : r.vars[q]? with
        | none => rfl
        | some w =>
          have hne : v.name ≠ w.name := by
            intro heq
            have howned := hwf.owned q w hw
            rw [← heq, hwf.owned p v hv] at howned
            cases howned
            exact hq rfl
          rw [Option.map_some, loaded_other (Or.inr hne), loaded_nil]

theorem loadNodes_eq : ∀ (nodes : List (Str × Node)) {r : Registry T σ} (s : σ), r.Wf → r.Calm →
    ∃ s', nodes.foldlM (loadNode fromStr emit) (r, s) =
      some ({ r with vars := r.vars.map (·.loaded fromStr emit nodes) }, s')
  | [], r, s, _, _ => by
    refine ⟨s, ?_⟩
    rw [show (fun v : Var T σ => v.loaded fromStr emit []) = id from funext loaded_nil, List.map_id]
    rfl
  | (key, node) :: nodes, r, s, hwf, hcalm => by
    obtain ⟨s₁, hnode⟩ : ∃ s₁, loadNode fromStr emit (r, s) (key, node) =
        some ({ r with vars := r.vars.map (·.loaded fromStr emit [(key, node)]) }, s₁) :=
      loadNode_eq hwf hcalm key node s
    have hwf₁ := (hwf.loadNode hnode).1
    obtain ⟨s', hrest⟩ := loadNodes_eq nodes s₁ hwf₁ (hcalm.loaded [(key, node)])
    refine ⟨s', ?_⟩
    rw [List.foldlM_cons, hnode]
    refine hrest.trans ?_
    dsimp only
    rw [List.map_map]
    congr 3
    refine List.map_congr_left fun v _ => ?_
    exact loaded_loaded v key node nodes

variable [DecidableEq κ]

/-- **Loading a document.** In every state of a program whose callbacks do
not fail, a load comes to its end, and each variable has the value of the
last node of its name that converts, or its old one. A node has the name
that its keys give, joined by dots. -/
theorem loadFromYaml_eq {s₀ : σ} {ops : List (Op T σ)}
    (hrun : run (Registry.step fromStr emit) (empty, s₀) ops = some (r, s)) (hcalm : r.Calm)
    (root : Node) :
    (∃ s', r.loadFromYaml fromStr emit root s =
      some ({ r with vars := r.vars.map (·.loaded fromStr emit (members root)) }, s')) ∧
      ∀ name node, (name, node) ∈ members root ↔
        ∃ keys, Doc.Leads scalarOf root keys node ∧ dotted keys = name := by
  refine ⟨?_, fun name node => mem_members_iff⟩
  rw [loadFromYaml, listAllMember_root]
  exact loadNodes_eq (members root) s (empty_wf.run hrun).1 hcalm

theorem loadFromYaml_stackDoc :
    ∃ r s', run (Registry.step natFromStr fun _ => []) (empty, ()) stackVars = some (r, ()) ∧
      r.loadFromYaml natFromStr (fun _ => []) stackDoc () =
        some ({ r with vars := r.vars.map (·.loaded natFromStr (fun _ => []) (members stackDoc)) }, s') := by
  have hrun : (run (Registry.step natFromStr fun _ => []) (empty, ()) stackVars).map
      (fun x => x.1.vars.map fun v => v.var.cbs.length) = some [0, 0] := by decide
  obtain ⟨⟨r, u⟩, hr, hcbs⟩ := Option.map_eq_some_iff.mp hrun
  have hcalm : r.Calm := by
    intro v hv
    have hlen : v.var.cbs.length ∈ r.vars.map fun v => v.var.cbs.length := List.mem_map_of_mem hv
    rw [hcbs] at hlen
    have hnil : v.var.cbs = [] := List.eq_nil_of_length_eq_zero (by simpa using hlen)
    rw [hnil]
    exact nofun
  obtain ⟨s', hload⟩ := (loadFromYaml_eq hr hcalm stackDoc).1
  exact ⟨r, s', hr, hload⟩

end Registry

end TinyTcp.Config
