/-
TinyTcp.Lib.Loop — loops over a list of entries with different keys.

Each pass of the loop works on the entry of one key and may fail.
`R s s' a` says that `s'` has what the pass for `a` should make, starting
from `s`, and `same k s s'` that nothing has happened to the key `k`. The
rule: if the keys differ, no pass disturbs another one.
-/
import Mathlib.Data.List.Basic

namespace TinyTcp.Lib

variable {σ α κ : Type}

/-- A loop that goes through has met what each of its passes needs. -/
theorem foldlM_ok {step : σ → α → Option σ} {ok : α → Prop}
    (hstep : ∀ s a s', step s a = some s' → ok a) :
    ∀ {l : List α} {s s' : σ}, l.foldlM step s = some s' → ∀ a ∈ l, ok a
  | [], _, _, _, _, ha => nomatch ha
  | b :: l, s, s', h, a, ha => by
      rw [List.foldlM_cons] at h
      obtain ⟨s₁, hb, hl⟩ := Option.bind_eq_some_iff.mp h
      rcases List.mem_cons.mp ha with rfl | ha
      · exact hstep s a s₁ hb
      · exact foldlM_ok hstep hl a ha

/-- **Loop rule.** Passes for different keys do not disturb each other. -/
theorem foldlM_distinct {step : σ → α → Option σ} (key : α → κ) (ok : α → Prop)
    (same : κ → σ → σ → Prop) (R : σ → σ → α → Prop) (hrefl : ∀ k s, same k s s)
    (htrans : ∀ k s s' s'', same k s s' → same k s' s'' → same k s s'')
    (hbefore : ∀ s s₁ s' a, same (key a) s s₁ → R s₁ s' a → R s s' a)
    (hafter : ∀ s s' s'' a, R s s' a → same (key a) s' s'' → R s s'' a)
    (hstep : ∀ s a, ok a →
      ∃ s', step s a = some s' ∧ R s s' a ∧ ∀ k, k ≠ key a → same k s s') :
    ∀ (l : List α) (s : σ), (l.map key).Nodup → (∀ a ∈ l, ok a) →
      ∃ s', l.foldlM step s = some s' ∧ (∀ a ∈ l, R s s' a) ∧ ∀ k, k ∉ l.map key → same k s s'
  | [], s, _, _ => ⟨s, rfl, nofun, fun k _ => hrefl k s⟩
  | b :: l, s, hkeys, hok => by
      rw [List.map_cons, List.nodup_cons] at hkeys
      obtain ⟨s₁, hb, hR, hsame⟩ := hstep s b (hok b List.mem_cons_self)
      obtain ⟨s', hl, hRl, hsamel⟩ := foldlM_distinct key ok same R hrefl htrans hbefore hafter hstep l s₁
        hkeys.2 fun a ha => hok a (List.mem_cons_of_mem _ ha)
      refine ⟨s', ?_, ?_, ?_⟩
      · rw [List.foldlM_cons, hb]
        exact hl
      · intro a ha
        rcases List.mem_cons.mp ha with rfl | ha
        · exact hafter s s₁ s' a hR (hsamel _ hkeys.1)
        · have hne : key a ≠ key b := fun heq => hkeys.1 (heq ▸ List.mem_map_of_mem ha)
          exact hbefore s s₁ s' a (hsame _ hne) (hRl a ha)
      · intro k hk
        rw [List.map_cons, List.mem_cons, not_or] at hk
        exact htrans k s s₁ s' (hsame k hk.1) (hsamel k hk.2)

/-! ## Loops that make a list -/

variable {β : Type}

/-- A loop whose passes do not fail. -/
theorem mapM_eq_map {f : α → Option β} {g : α → β} :
    ∀ {l : List α}, (∀ a ∈ l, f a = some (g a)) → l.mapM f = some (l.map g)
  | [], _ => rfl
  | a :: l, h => by
    rw [List.mapM_cons, h a List.mem_cons_self, mapM_eq_map fun b hb => h b (List.mem_cons_of_mem a hb)]
    rfl

theorem mapM_congr {f g : α → Option β} {l : List α} (h : ∀ a ∈ l, f a = g a) : l.mapM f = l.mapM g := by
  induction l with
  | nil => rfl
  | cons a l ih =>
    rw [List.mapM_cons, List.mapM_cons, h a List.mem_cons_self, ih fun b hb => h b (List.mem_cons_of_mem a hb)]

/-- A loop gives its list again only if each pass gives its element. -/
theorem mapM_eq_self_iff {f : α → Option α} {l : List α} :
    l.mapM f = some l ↔ ∀ a ∈ l, f a = some a := by
  induction l with
  | nil => simp
  | cons a l ih =>
    rw [List.mapM_cons, List.forall_mem_cons, ← ih]
    cases hfa : f a with
    | none => simp
    | some b =>
      cases hl : l.mapM f with
      | none => simp
      | some l' => simp [eq_comm]

/-- What the passes keep of their elements, the loop keeps of the list. -/
theorem map_eq_of_mapM {γ : Type} {f : α → Option β} {g : α → γ} {h : β → γ}
    (hf : ∀ a b, f a = some b → h b = g a) :
    ∀ {l : List α} {l' : List β}, l.mapM f = some l' → l'.map h = l.map g
  | [], l', heq => by
    cases heq
    rfl
  | a :: l, l', heq => by
    rw [List.mapM_cons] at heq
    obtain ⟨b, hb, heq⟩ := Option.bind_eq_some_iff.mp heq
    obtain ⟨bs, hbs, heq⟩ := Option.bind_eq_some_iff.mp heq
    cases heq
    rw [List.map_cons, List.map_cons, hf a b hb, map_eq_of_mapM hf hbs]

/-- The elements of a list that a loop makes. -/
theorem of_mem_mapM {f : α → Option β} {p : β → Prop} (hf : ∀ a b, f a = some b → p b) :
    ∀ {l : List α} {l' : List β}, l.mapM f = some l' → ∀ b ∈ l', p b
  | [], l', h, b, hb => by
    cases h
    cases hb
  | a :: l, l', h, b, hb => by
    rw [List.mapM_cons] at h
    obtain ⟨c, hc, h⟩ := Option.bind_eq_some_iff.mp h
    obtain ⟨cs, hcs, h⟩ := Option.bind_eq_some_iff.mp h
    cases h
    rcases List.mem_cons.mp hb with rfl | hb
    · exact hf a b hc
    · exact of_mem_mapM hf hcs b hb

/-- A loop over the indices of a sequence is one over its elements. -/
theorem mapM_range (f : Option α → Option β) (l : List α) :
    ((List.range l.length).mapM fun i => f l[i]?) = l.mapM fun a => f (some a) := by
  have hmap : (List.range l.length).map (l[·]?) = l.map some := by
    refine List.ext_getElem? fun i => ?_
    rw [List.getElem?_map, List.getElem?_map]
    by_cases hi : i < l.length
    · rw [List.getElem?_range hi, List.getElem?_eq_getElem hi, Option.map_some, Option.map_some,
        List.getElem?_eq_getElem hi]
    · rw [List.getElem?_eq_none (by simpa using hi), List.getElem?_eq_none (Nat.not_lt.mp hi)]
      rfl
  calc ((List.range l.length).mapM fun i => f l[i]?)
      = ((List.range l.length).map (l[·]?)).mapM f := (List.mapM_map ..).symm
    _ = (l.map some).mapM f := by rw [hmap]
    _ = l.mapM fun a => f (some a) := List.mapM_map ..

/-- A loop that may leave things out gives its list again only if it changes nothing. -/
theorem filterMap_eq_self_iff {f : α → Option α} {l : List α} :
    l.filterMap f = l ↔ ∀ a ∈ l, f a = some a := by
  induction l with
  | nil => simp
  | cons a l ih =>
    rw [List.forall_mem_cons, ← ih]
    cases hfa : f a with
    | none =>
      rw [List.filterMap_cons_none hfa]
      refine iff_of_false (fun heq => ?_) nofun
      have hlen := List.length_filterMap_le f l
      rw [heq, List.length_cons] at hlen
      omega
    | some b =>
      rw [List.filterMap_cons_some hfa, List.cons.injEq, Option.some.injEq]

end TinyTcp.Lib
