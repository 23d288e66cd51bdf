/-
TinyTcp.Lib.Parties — how many of several parties are in a phase.

Each of finitely many parties has a state; `parties p f` counts those whose
state satisfies `p`. When one party moves, the count changes by what its
two states say (`parties_update`), so it can stand in an invariant about
steps of one party at a time.
-/
import Mathlib.Algebra.BigOperators.Fin
import Mathlib.Data.Fintype.BigOperators

namespace TinyTcp.Lib

variable {ι σ : Type} [Fintype ι]

/-- The number of parties in the phase `p`. -/
def parties (p : σ → Bool) (f : ι → σ) : Nat := ∑ i, (p (f i)).toNat

theorem parties_eq_zero {p : σ → Bool} {f : ι → σ} (h : ∀ i, p (f i) = false) : parties p f = 0 := by
  rw [parties]
  refine Finset.sum_eq_zero fun i _ => ?_
  rw [h i]
  rfl

variable [DecidableEq ι]

/-- The count after a move: the new state of one party for its old one. -/
theorem parties_update (p : σ → Bool) (f : ι → σ) (i : ι) (x : σ) :
    parties p (Function.update f i x) + (p (f i)).toNat = parties p f + (p x).toNat := by
  have hi : i ∈ Finset.univ := Finset.mem_univ i
  have hothers : ∑ j ∈ Finset.univ.erase i, (p (Function.update f i x j)).toNat
      = ∑ j ∈ Finset.univ.erase i, (p (f j)).toNat := by
    refine Finset.sum_congr rfl fun j hj => ?_
    rw [Function.update_of_ne (Finset.ne_of_mem_erase hj)]
  rw [parties, parties, ← Finset.add_sum_erase _ _ hi, ← Finset.add_sum_erase _ (fun j => (p (f j)).toNat) hi,
    hothers, Function.update_self]
  omega

end TinyTcp.Lib
