/-
TinyTcp.Config.ConfigVar — `ConfigVar<T>` of `src/config.h`.

A variable has a value and the callbacks that are told of a change, in the
order of their keys. A callback works on a state `σ` outside of the
variable and may fail to come back (`none`). `setValue` calls them with
the old and the new value before it stores the new one, and does nothing
when the values are equal.
-/
import Mathlib.Data.List.Basic

namespace TinyTcp.Config

variable {T σ : Type}

/-- `m_cbs` maps keys to callbacks, in increasing order of the keys. -/
structure ConfigVar (T σ : Type) where
  val : T
  cbs : List (Nat × (T → T → σ → Option σ))

namespace ConfigVar

variable (c : ConfigVar T σ)

/-- `add_listener`; the keys come from a counter of the program. -/
def addListener (funcId : Nat) (cb : T → T → σ → Option σ) : ConfigVar T σ :=
  { c with cbs := c.cbs ++ [(funcId + 1, cb)] }

/-- `del_listener` -/
def delListener (key : Nat) : ConfigVar T σ :=
  { c with cbs := c.cbs.filter (·.1 ≠ key) }

/-- `clear_listener` -/
def clearListener : ConfigVar T σ := { c with cbs := [] }

/-- `set_value` -/
def setValue [DecidableEq T] (v : T) (s : σ) : Option (ConfigVar T σ × σ) :=
  if c.val = v then some (c, s)
  else
    match c.cbs.foldlM (fun s i => i.2 c.val v s) s with
    | none => none
    | some s => some ({ c with val := v }, s)

/-- `from_string`: whether it has set the value. An exception of the
conversion is logged. -/
def fromString [DecidableEq T] (fromStr : List UInt8 → Option T) (val : List UInt8) (s : σ) :
    Option (Bool × ConfigVar T σ × σ) :=
  match fromStr val with
  | none => some (false, c, s)
  | some v => (c.setValue v s).map fun r => (true, r)

variable [DecidableEq T]

@[simp] theorem setValue_same (s : σ) : c.setValue c.val s = some (c, s) := by
  simp [setValue]

/-- `set_value` leaves the callbacks as they are, and comes back with the value set. -/
theorem setValue_spec {v : T} {s s' : σ} {c' : ConfigVar T σ} (h : c.setValue v s = some (c', s')) :
    c' = { c with val := v } := by
  unfold setValue at h
  split at h
  · next heq =>
    cases h
    rw [← heq]
  · split at h
    · cases h
    · cases h
      rfl

/-- It comes back if each callback does. -/
theorem setValue_isSome (hcbs : ∀ i ∈ c.cbs, ∀ old new s, (i.2 old new s).isSome = true) (v : T) (s : σ) :
    ∃ s', c.setValue v s = some ({ c with val := v }, s') := by
  have hloop : ∀ (cbs : List (Nat × (T → T → σ → Option σ))) (s : σ),
      (∀ i ∈ cbs, ∀ old new s, (i.2 old new s).isSome = true) →
        ∃ s', cbs.foldlM (fun s i => i.2 c.val v s) s = some s' := by
    intro cbs
    induction cbs with
    | nil => exact fun s _ => ⟨s, rfl⟩
    | cons i cbs ih =>
      intro s hcbs
      obtain ⟨s₁, hi⟩ := Option.isSome_iff_exists.mp (hcbs i List.mem_cons_self c.val v s)
      obtain ⟨s', hrest⟩ := ih s₁ fun j hj => hcbs j (List.mem_cons_of_mem i hj)
      exact ⟨s', by rw [List.foldlM_cons, hi]; exact hrest⟩
  by_cases heq : c.val = v
  · subst heq
    exact ⟨s, setValue_same c s⟩
  · obtain ⟨s', hs'⟩ := hloop c.cbs s hcbs
    exact ⟨s', by rw [setValue, if_neg heq, hs']⟩

/-- A variable with one listener: it is called when the value changes. -/
theorem setValue_listener {funcId : Nat} {cb : T → T → σ → Option σ} {val v : T} (h : val ≠ v) (s : σ) :
    (ConfigVar.setValue ⟨val, [(funcId, cb)]⟩ v s) =
      (cb val v s).map fun s => (⟨v, [(funcId, cb)]⟩, s) := by
  rw [setValue, if_neg h]
  simp only [List.foldlM_cons, List.foldlM_nil]
  cases cb val v s with
  | none => rfl
  | some s' => rfl

/-- A variable nobody listens to only changes its value. -/
theorem setValue_silent (val v : T) (s : σ) :
    ConfigVar.setValue ⟨val, []⟩ v s = some (⟨v, []⟩, s) := by
  by_cases h : val = v
  · subst h
    exact setValue_same _ s
  · simp [setValue, h]

end ConfigVar

end TinyTcp.Config
