/-
TinyTcp.Lib.Linearizable — objects that several threads use at once, and
what it means that their operations look atomic.

`Atomic` is an object with atomic operations: a thread enters a call, the
call has its effect in one step, and later it returns the result of that
step. The history of a run is what the callers can see, the calls and the
returns in their order. A history is `Linearizable` if `Atomic` has a run
with this history: every call had its effect at one moment between its
beginning and its end.

`linearizable_of_abst` is the rule to prove it by: each step of the
implementation is none, one or several steps of the atomic object, under a
map of the states.
-/
import TinyTcp.Lib.Run
import Mathlib.Logic.Function.Basic

namespace TinyTcp.Lib

/-! ## Histories -/

section History

variable {σ ℓ μ : Type} {step : σ → ℓ → Option σ} {mark : σ → ℓ → Option μ}

/-- What can be seen of a run from `s`. -/
def history (step : σ → ℓ → Option σ) (mark : σ → ℓ → Option μ) : σ → List ℓ → List μ
  | _, [] => []
  | s, l :: ls =>
      match step s l with
      | some s' => (mark s l).toList ++ history step mark s' ls
      | none => []

@[simp] theorem history_nil (s : σ) : history step mark s [] = [] := rfl

theorem history_cons {s s' : σ} {l : ℓ} (h : step s l = some s') (ls : List ℓ) :
    history step mark s (l :: ls) = (mark s l).toList ++ history step mark s' ls := by
  simp only [history, h]

theorem history_append {ls : List ℓ} {s t : σ} (h : run step s ls = some t) (ms : List ℓ) :
    history step mark s (ls ++ ms) = history step mark s ls ++ history step mark t ms := by
  induction ls generalizing s with
  | nil =>
    cases h
    rfl
  | cons l ls ih =>
    cases hl : step s l with
    | none => simp [run, hl] at h
    | some s' =>
      rw [run_cons hl] at h
      rw [List.cons_append, history_cons hl, history_cons hl, ih h, List.append_assoc]

end History

/-! ## The atomic object -/

variable {ι σ Op R : Type}

/-- The call of a thread: none, one without effect so far, or one with its result. -/
inductive CallState (Op R : Type) where
  | idle
  | pending (op : Op)
  | done (r : R)
  deriving DecidableEq

/-- What callers see. -/
inductive Mark (Op R : Type) where
  | call (op : Op)
  | ret (r : R)
  deriving DecidableEq

inductive Turn (Op : Type) where
  | call (op : Op)
  | effect
  | ret
  deriving DecidableEq

structure Atomic (ι σ Op R : Type) where
  state : σ
  call : ι → CallState Op R

namespace Atomic

variable [DecidableEq ι]

/-- `f` says what an operation returns and which state it leaves. -/
def step (f : σ → Op → R × σ) (a : Atomic ι σ Op R) (m : ι × Turn Op) : Option (Atomic ι σ Op R) :=
  match a.call m.1, m.2 with
  | .idle, .call op => some { a with call := Function.update a.call m.1 (.pending op) }
  | .pending op, .effect =>
      some ⟨(f a.state op).2, Function.update a.call m.1 (.done (f a.state op).1)⟩
  | .done _, .ret => some { a with call := Function.update a.call m.1 .idle }
  | _, _ => none

def mark (a : Atomic ι σ Op R) (m : ι × Turn Op) : Option (ι × Mark Op R) :=
  match a.call m.1, m.2 with
  | .idle, .call op => some (m.1, .call op)
  | .done r, .ret => some (m.1, .ret r)
  | _, _ => none

def init (state : σ) : Atomic ι σ Op R := ⟨state, fun _ => .idle⟩

end Atomic

variable [DecidableEq ι]

/-- An atomic object that starts with `state` can have this history. -/
def Linearizable (f : σ → Op → R × σ) (state : σ) (calls : List (ι × Mark Op R)) : Prop :=
  ∃ turns, (run (Atomic.step f) (.init state) turns).isSome = true ∧
    history (Atomic.step f) Atomic.mark (.init state) turns = calls

/-! ## The rule -/

/-- From `a` to `b`, with these marks. -/
def Atomic.Goes (f : σ → Op → R × σ) (a b : Atomic ι σ Op R) (calls : List (ι × Mark Op R)) : Prop :=
  ∃ turns, run (step f) a turns = some b ∧ history (step f) mark a turns = calls

namespace Atomic.Goes

variable {f : σ → Op → R × σ} {a b c : Atomic ι σ Op R} {t : ι}

theorem refl (a : Atomic ι σ Op R) : Goes f a a [] := ⟨[], rfl, rfl⟩

theorem trans {calls calls' : List (ι × Mark Op R)} (h : Goes f a b calls)
    (h' : Goes f b c calls') : Goes f a c (calls ++ calls') := by
  obtain ⟨turns, hrun, hcalls⟩ := h
  obtain ⟨turns', hrun', hcalls'⟩ := h'
  refine ⟨turns ++ turns', ?_, ?_⟩
  · rw [run_append, hrun, Option.bind_some, hrun']
  · rw [history_append hrun, hcalls, hcalls']

theorem of_step {m : ι × Turn Op} (h : step f a m = some b) : Goes f a b (mark a m).toList := by
  refine ⟨[m], ?_, ?_⟩
  · rw [run_cons h, run_nil]
  · rw [history_cons h, history_nil, List.append_nil]

theorem enter (op : Op) (h : a.call t = .idle) :
    Goes f a { a with call := Function.update a.call t (.pending op) } [(t, .call op)] := by
  simpa [mark, h] using of_step (f := f) (a := a) (m := (t, .call op)) (by simp [step, h])

theorem effect {op : Op} {r : R} {state : σ} (h : a.call t = .pending op)
    (happly : f a.state op = (r, state)) :
    Goes f a ⟨state, Function.update a.call t (.done r)⟩ [] := by
  simpa [mark, h] using of_step (f := f) (a := a) (m := (t, .effect)) (by simp [step, h, happly])

theorem ret {r : R} (h : a.call t = .done r) :
    Goes f a { a with call := Function.update a.call t .idle } [(t, .ret r)] := by
  simpa [mark, h] using of_step (f := f) (a := a) (m := (t, .ret)) (by simp [step, h])

end Atomic.Goes

/-- **Linearization rule.** When each step of the implementation, with what
can be seen of it, is a run of the atomic object under the map `abst`, every
history of the implementation is linearizable. -/
theorem linearizable_of_abst {S L : Type} {step : S → L → Option S} {ok : S → L → Prop}
    {mark : S → L → Option (ι × Mark Op R)} {f : σ → Op → R × σ} {Inv : S → Prop}
    (abst : S → Atomic ι σ Op R)
    (hstep : ∀ s l s', Inv s → ok s l → step s l = some s' →
      Inv s' ∧ Atomic.Goes f (abst s) (abst s') (mark s l).toList)
    {s : S} {state : σ} (hs : Inv s) (hinit : abst s = .init state) {ls : List L} {t : S}
    (hok : Along step ok s ls) (hrun : run step s ls = some t) :
    Linearizable f state (history step mark s ls) := by
  have hgoes : ∀ ls s, Inv s → Along step ok s ls → run step s ls = some t →
      Atomic.Goes f (abst s) (abst t) (history step mark s ls) := by
    intro ls
    induction ls with
    | nil =>
      intro s _ _ hrun
      cases hrun
      exact .refl _
    | cons l ls ih =>
      intro s hs hok hrun
      cases hl : step s l with
      | none => simp [run, hl] at hrun
      | some s' =>
        obtain ⟨hok, hrest⟩ := hok
        rw [hl] at hrest
        rw [run_cons hl] at hrun
        obtain ⟨hs', hfirst⟩ := hstep s l s' hs hok hl
        rw [history_cons hl]
        exact hfirst.trans (ih s' hs' hrest hrun)
  obtain ⟨turns, hturns, hcalls⟩ := hgoes ls s hs hok hrun
  rw [hinit] at hturns hcalls
  exact ⟨turns, by rw [hturns]; rfl, hcalls⟩

end TinyTcp.Lib
