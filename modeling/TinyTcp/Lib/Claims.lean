/-
TinyTcp.Lib.Claims — the cells of a shared memory, each with one owner.

A claim is a cell together with what its owner relies on; `meets t a` says
that `a` is as a claim of kind `t` wants it. `Held cells mem claims` is
the invariant: every cell of `cells` has exactly one claim, and all claims
are met. Its rules say what a party may do that has one of the claims:
write to its cell (`Held.write`) and hand it over as something else
(`Held.relax`). A write that every claim on the cell survives needs no
claim at all (`Held.write_stable`).
-/
import Mathlib.Algebra.BigOperators.Group.List.Basic
import Mathlib.Data.Multiset.MapFold
import Mathlib.Data.Multiset.ZeroCons
import Mathlib.Logic.Function.Basic

namespace TinyTcp.Lib

variable {ι σ τ : Type} {meets : τ → σ → Prop}

structure Held (meets : τ → σ → Prop) (cells : Multiset ι) (mem : ι → σ)
    (claims : Multiset (ι × τ)) : Prop where
  cells : claims.map Prod.fst = cells
  met : ∀ c ∈ claims, meets c.2 (mem c.1)

/-- One of several parties moves: what the others have stays a summand. -/
theorem exists_sum_rest {α M : Type} [AddCommMonoid M] (f : α → M) {as : List α} {k : Nat} {a : α}
    (h : as[k]? = some a) :
    ∃ rest, (as.map f).sum = f a + rest ∧ ∀ b, ((as.set k b).map f).sum = f b + rest := by
  induction as generalizing k with
  | nil => simp at h
  | cons a' as ih =>
    cases k with
    | zero =>
      simp only [List.getElem?_cons_zero, Option.some.injEq] at h
      exact ⟨(as.map f).sum, by rw [h, List.map_cons, List.sum_cons],
        fun b => by rw [List.set_cons_zero, List.map_cons, List.sum_cons]⟩
    | succ k =>
      simp only [List.getElem?_cons_succ] at h
      obtain ⟨rest, hsum, hset⟩ := ih h
      refine ⟨f a' + rest, ?_, fun b => ?_⟩
      · rw [List.map_cons, List.sum_cons, hsum, add_left_comm]
      · rw [List.set_cons_succ, List.map_cons, List.sum_cons, hset, add_left_comm]

namespace Held

variable {cells : Multiset ι} {mem : ι → σ} {claims rest : Multiset (ι × τ)} {x : ι} {t u : τ}

/-- There are as many claims as cells. -/
theorem card (h : Held meets cells mem claims) : claims.card = cells.card := by
  rw [← h.cells, Multiset.card_map]

theorem mem_cells (h : Held meets cells mem claims) {c : ι × τ} (hc : c ∈ claims) :
    c.1 ∈ cells := by
  rw [← h.cells]
  exact Multiset.mem_map_of_mem Prod.fst hc

theorem met_cons (h : Held meets cells mem ((x, t) ::ₘ rest)) : meets t (mem x) :=
  h.met (x, t) (Multiset.mem_cons_self _ _)

/-- No other claim is on the cell. -/
theorem ne_of_mem (hn : cells.Nodup) (h : Held meets cells mem ((x, t) ::ₘ rest)) {c : ι × τ}
    (hc : c ∈ rest) : c.1 ≠ x := by
  rw [← h.cells, Multiset.map_cons, Multiset.nodup_cons] at hn
  intro heq
  have hmem : c.1 ∈ rest.map Prod.fst := Multiset.mem_map_of_mem Prod.fst hc
  rw [heq] at hmem
  exact hn.1 hmem

/-- The owner of a cell gives up its claim for another one that is met, too. -/
theorem relax (h : Held meets cells mem ((x, t) ::ₘ rest)) (hu : meets u (mem x)) :
    Held meets cells mem ((x, u) ::ₘ rest) := by
  refine ⟨?_, ?_⟩
  · rw [← h.cells, Multiset.map_cons, Multiset.map_cons]
  · intro c hc
    rcases Multiset.mem_cons.mp hc with rfl | hc
    · exact hu
    · exact h.met c (Multiset.mem_cons_of_mem hc)

variable [DecidableEq ι]

/-- The owner of a cell writes to it. -/
theorem write (hn : cells.Nodup) (h : Held meets cells mem ((x, t) ::ₘ rest)) {a : σ}
    (ha : meets u a) : Held meets cells (Function.update mem x a) ((x, u) ::ₘ rest) := by
  refine ⟨?_, ?_⟩
  · rw [← h.cells, Multiset.map_cons, Multiset.map_cons]
  · intro c hc
    rcases Multiset.mem_cons.mp hc with rfl | hc
    · rw [Function.update_self]
      exact ha
    · rw [Function.update_of_ne (h.ne_of_mem hn hc)]
      exact h.met c (Multiset.mem_cons_of_mem hc)

/-- A write that is harmless to every kind of claim. -/
theorem write_stable (h : Held meets cells mem claims) {a : σ}
    (hstable : ∀ t, meets t (mem x) → meets t a) :
    Held meets cells (Function.update mem x a) claims := by
  refine ⟨h.cells, ?_⟩
  intro c hc
  have hmet := h.met c hc
  by_cases hx : c.1 = x
  · rw [hx, Function.update_self]
    rw [hx] at hmet
    exact hstable c.2 hmet
  · rw [Function.update_of_ne hx]
    exact hmet

end Held

end TinyTcp.Lib
