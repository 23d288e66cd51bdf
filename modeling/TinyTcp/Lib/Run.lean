/-
TinyTcp.Lib.Run — runs of a deterministic labelled transition system and
the two induction rules every run property below is assembled from.

A system is a partial step function `σ → ℓ → Option σ`: the label says
which party moves and settles what the environment decides, `none` says
that the move is not possible. `run` folds a list of labels, and
`Along ok` says that every step of the run meets the condition `ok` in
the state BEFORE the step. `run_induction` carries an invariant along
such a run.
-/
import Mathlib.Data.List.Basic

namespace TinyTcp.Lib

variable {σ ℓ : Type}

/-- The state after the labelled steps, `none` when one is not possible. -/
def run (step : σ → ℓ → Option σ) : σ → List ℓ → Option σ
  | s, [] => some s
  | s, l :: ls =>
      match step s l with
      | some s' => run step s' ls
      | none => none

/-- Every step of the run from `s` meets `ok` in the state it starts in. -/
def Along (step : σ → ℓ → Option σ) (ok : σ → ℓ → Prop) : σ → List ℓ → Prop
  | _, [] => True
  | s, l :: ls =>
      ok s l ∧
      match step s l with
      | some s' => Along step ok s' ls
      | none => True

/-- Every state of the run from `s` has the property. -/
def Always (step : σ → ℓ → Option σ) (p : σ → Prop) : σ → List ℓ → Prop
  | s, [] => p s
  | s, l :: ls =>
      p s ∧
      match step s l with
      | some s' => Always step p s' ls
      | none => True

instance {step : σ → ℓ → Option σ} {ok : σ → ℓ → Prop} [∀ s l, Decidable (ok s l)] :
    ∀ (s : σ) (ls : List ℓ), Decidable (Along step ok s ls)
  | _, [] => isTrue trivial
  | s, l :: ls =>
      have : Decidable (match step s l with
          | some s' => Along step ok s' ls
          | none => True) :=
        match step s l with
        | some s' => instDecidableAlong s' ls
        | none => isTrue trivial
      inferInstanceAs (Decidable (_ ∧ _))

@[simp] theorem run_nil (step : σ → ℓ → Option σ) (s : σ) : run step s [] = some s := rfl

theorem run_cons {step : σ → ℓ → Option σ} {s s' : σ} {l : ℓ} (h : step s l = some s')
    (ls : List ℓ) : run step s (l :: ls) = run step s' ls := by
  simp only [run, h]

/-- A condition on the labels alone is met along the run. -/
theorem along_of_forall {step : σ → ℓ → Option σ} {p : ℓ → Prop} {ls : List ℓ}
    (h : ∀ l ∈ ls, p l) (s : σ) : Along step (fun _ l => p l) s ls := by
  induction ls generalizing s with
  | nil => trivial
  | cons l ls ih =>
    refine ⟨h l List.mem_cons_self, ?_⟩
    have hrest : ∀ l' ∈ ls, p l' := fun l' hl' => h l' (List.mem_cons_of_mem l hl')
    cases step s l with
    | none => trivial
    | some s' => exact ih hrest s'

theorem Along.mono {step : σ → ℓ → Option σ} {ok ok' : σ → ℓ → Prop}
    (himp : ∀ s l, ok s l → ok' s l) {ls : List ℓ} {s : σ} (h : Along step ok s ls) :
    Along step ok' s ls := by
  induction ls generalizing s with
  | nil => trivial
  | cons l ls ih =>
    refine ⟨himp s l h.1, ?_⟩
    have hrest := h.2
    cases hl : step s l with
    | none => trivial
    | some s' =>
      simp only [hl] at hrest ⊢
      exact ih hrest

/-- A run splits where its label list does. -/
theorem run_append (step : σ → ℓ → Option σ) (ls ms : List ℓ) (s : σ) :
    run step s (ls ++ ms) = (run step s ls).bind (fun t => run step t ms) := by
  induction ls generalizing s with
  | nil => rfl
  | cons l ls ih =>
    simp only [List.cons_append, run]
    cases step s l with
    | none => rfl
    | some s' => exact ih s'

/-- A run goes through if each step is possible exactly if it meets `ok`, and
all of them do. -/
theorem run_isSome_iff {step : σ → ℓ → Option σ} {ok : σ → ℓ → Prop} {Inv : σ → Prop}
    (hiff : ∀ s l, Inv s → ((step s l).isSome = true ↔ ok s l))
    (hstep : ∀ s l s', Inv s → step s l = some s' → Inv s') :
    ∀ (ls : List ℓ) (s : σ), Inv s → ((run step s ls).isSome = true ↔ Along step ok s ls)
  | [], _, _ => iff_of_true rfl trivial
  | l :: ls, s, hs => by
      have hok := hiff s l hs
      cases hl : step s l with
      | none =>
        simp only [hl, Option.isSome_none, Bool.false_eq_true, false_iff] at hok
        simp [run, Along, hl, hok]
      | some s' =>
        simp only [hl, Option.isSome_some, true_iff] at hok
        rw [run_cons hl, run_isSome_iff hiff hstep ls s' (hstep s l s' hs hl)]
        simp [Along, hl, hok]

/-- A condition along a run splits where its label list does. -/
theorem Along.append {step : σ → ℓ → Option σ} {ok : σ → ℓ → Prop} {ls ms : List ℓ} {s t : σ}
    (h : Along step ok s (ls ++ ms)) (hrun : run step s ls = some t) :
    Along step ok s ls ∧ Along step ok t ms := by
  induction ls generalizing s with
  | nil =>
    simp only [run, Option.some.injEq] at hrun
    exact ⟨trivial, hrun ▸ h⟩
  | cons l ls ih =>
    obtain ⟨hok, hrest⟩ := h
    cases hl : step s l with
    | none => simp [run, hl] at hrun
    | some s' =>
      rw [run_cons hl] at hrun
      simp only [hl] at hrest
      obtain ⟨hls, hms⟩ := ih hrest hrun
      refine ⟨⟨hok, ?_⟩, hms⟩
      simp only [hl]
      exact hls

/-- A condition is met along a run if it is met along its two parts. -/
theorem along_append {step : σ → ℓ → Option σ} {ok : σ → ℓ → Prop} {ls ms : List ℓ} {s : σ}
    (h : Along step ok s ls) (hms : ∀ t, run step s ls = some t → Along step ok t ms) :
    Along step ok s (ls ++ ms) := by
  induction ls generalizing s with
  | nil => exact hms s rfl
  | cons l ls ih =>
    obtain ⟨hok, hrest⟩ := h
    refine ⟨hok, ?_⟩
    cases hl : step s l with
    | none => trivial
    | some s' =>
      simp only [hl] at hrest ⊢
      exact ih hrest fun t ht => hms t (by rw [run_cons hl]; exact ht)

/-- **Invariant rule.** What the first state has and every step meeting
`ok` preserves, every state of a run whose steps all meet `ok` has. -/
theorem run_induction {step : σ → ℓ → Option σ} {ok : σ → ℓ → Prop} {Inv : σ → Prop}
    (hstep : ∀ s l s', Inv s → ok s l → step s l = some s' → Inv s') :
    ∀ (ls : List ℓ) (s t : σ), Inv s → Along step ok s ls → run step s ls = some t → Inv t
  | [], s, t, hs, _, hrun => by
      simp only [run, Option.some.injEq] at hrun
      exact hrun ▸ hs
  | l :: ls, s, t, hs, halong, hrun => by
      obtain ⟨hok, hrest⟩ := halong
      cases hl : step s l with
      | none => simp [run, hl] at hrun
      | some s' =>
        rw [run_cons hl] at hrun
        simp only [hl] at hrest
        exact run_induction hstep ls s' t (hstep s l s' hs hok hl) hrest hrun

/-- **Progress rule.** When a step meeting `ok` is always possible and keeps
the invariant, a run whose steps all meet `ok` goes through to its end. -/
theorem run_progress {step : σ → ℓ → Option σ} {ok : σ → ℓ → Prop} {Inv : σ → Prop}
    (hstep : ∀ s l, Inv s → ok s l → ∃ s', step s l = some s' ∧ Inv s') :
    ∀ (ls : List ℓ) (s : σ), Inv s → Along step ok s ls →
      ∃ t, run step s ls = some t ∧ Inv t
  | [], s, hs, _ => ⟨s, rfl, hs⟩
  | l :: ls, s, hs, halong => by
      obtain ⟨hok, hrest⟩ := halong
      obtain ⟨s', hl, hs'⟩ := hstep s l hs hok
      simp only [hl] at hrest
      rw [run_cons hl]
      exact run_progress hstep ls s' hs' hrest

/-- **Safety rule.** What the invariant implies holds in every state of a run
whose steps all meet `ok`. -/
theorem always_of_along {step : σ → ℓ → Option σ} {ok : σ → ℓ → Prop} {p Inv : σ → Prop}
    (hp : ∀ s, Inv s → p s)
    (hstep : ∀ s l s', Inv s → ok s l → step s l = some s' → Inv s') :
    ∀ (ls : List ℓ) (s : σ), Inv s → Along step ok s ls → Always step p s ls
  | [], s, hs, _ => hp s hs
  | l :: ls, s, hs, ⟨hok, hrest⟩ => by
      refine ⟨hp s hs, ?_⟩
      cases hl : step s l with
      | none => trivial
      | some s' =>
        simp only [hl] at hrest
        exact always_of_along hp hstep ls s' (hstep s l s' hs hok hl) hrest

/-- What every state with the invariant grants the next step holds along a run. -/
theorem along_of_inv {step : σ → ℓ → Option σ} {ok : σ → ℓ → Prop} {Inv : σ → Prop}
    (hok : ∀ s l, Inv s → ok s l) (hstep : ∀ s l s', Inv s → step s l = some s' → Inv s') :
    ∀ (ls : List ℓ) (s : σ), Inv s → Along step ok s ls
  | [], _, _ => trivial
  | l :: ls, s, hs => by
      refine ⟨hok s l hs, ?_⟩
      cases hl : step s l with
      | none => trivial
      | some s' => exact along_of_inv hok hstep ls s' (hstep s l s' hs hl)

/-- The last state of a run is one of its states. -/
theorem Always.of_run {step : σ → ℓ → Option σ} {p : σ → Prop} {ls : List ℓ} {s t : σ}
    (h : Always step p s ls) (hrun : run step s ls = some t) : p t := by
  induction ls generalizing s with
  | nil =>
    simp only [run, Option.some.injEq] at hrun
    exact hrun ▸ h
  | cons l ls ih =>
    cases hl : step s l with
    | none => simp [run, hl] at hrun
    | some s' =>
      rw [run_cons hl] at hrun
      have hrest := h.2
      simp only [hl] at hrest
      exact ih hrest hrun

/-- **Exactness rule.** When a step keeps a property exactly if it meets `ok`,
every state of a run has the property exactly if all its steps meet `ok`.
Only a step that meets `ok` has to keep the invariant, and only such a step
may be impossible. -/
theorem always_iff_along_of_stuck {step : σ → ℓ → Option σ} {ok : σ → ℓ → Prop} {p Inv : σ → Prop}
    (hstuck : ∀ s l, Inv s → p s → step s l = none → ok s l)
    (hstep : ∀ s l s', Inv s → p s → step s l = some s' → (ok s l → Inv s') ∧ (p s' ↔ ok s l)) :
    ∀ (ls : List ℓ) (s : σ), Inv s → p s → (Always step p s ls ↔ Along step ok s ls)
  | [], _, _, hp => iff_of_true hp trivial
  | l :: ls, s, hs, hp => by
      cases hl : step s l with
      | none =>
        simp only [Always, Along, hl]
        exact iff_of_true ⟨hp, trivial⟩ ⟨hstuck s l hs hp hl, trivial⟩
      | some s' =>
        obtain ⟨hs', hiff⟩ := hstep s l s' hs hp hl
        simp only [Always, Along, hl]
        by_cases hok : ok s l
        · have ih := always_iff_along_of_stuck hstuck hstep ls s' (hs' hok) (hiff.mpr hok)
          exact ⟨fun h => ⟨hok, ih.mp h.2⟩, fun h => ⟨hp, ih.mpr h.2⟩⟩
        · refine iff_of_false (fun h => hok (hiff.mp ?_)) fun h => hok h.1
          cases ls with
          | nil => exact h.2
          | cons l' ls => exact h.2.1

/-- **Exactness rule** for a step that is always possible. -/
theorem always_iff_along {step : σ → ℓ → Option σ} {ok : σ → ℓ → Prop} {p Inv : σ → Prop}
    (hstep : ∀ s l, Inv s → p s →
      ∃ s', step s l = some s' ∧ (ok s l → Inv s') ∧ (p s' ↔ ok s l))
    (ls : List ℓ) (s : σ) (hs : Inv s) (hp : p s) :
    Always step p s ls ↔ Along step ok s ls := by
  refine always_iff_along_of_stuck (fun s l hs hp hnone => ?_) (fun s l s' hs hp hl => ?_) ls s hs hp
  · obtain ⟨s', hl, -⟩ := hstep s l hs hp
    rw [hnone] at hl
    cases hl
  · obtain ⟨s₁, hl₁, hstep'⟩ := hstep s l hs hp
    rw [hl] at hl₁
    rw [Option.some.inj hl₁]
    exact hstep'

/-- **Exactness rule** for a run that goes through, whatever the steps that are impossible. -/
theorem always_iff_along_of_run {step : σ → ℓ → Option σ} {ok : σ → ℓ → Prop} {p Inv : σ → Prop}
    (hstep : ∀ s l s', Inv s → p s → step s l = some s' → (ok s l → Inv s') ∧ (p s' ↔ ok s l)) :
    ∀ (ls : List ℓ) (s t : σ), Inv s → p s → run step s ls = some t →
      (Always step p s ls ↔ Along step ok s ls)
  | [], _, _, _, hp, _ => iff_of_true hp trivial
  | l :: ls, s, t, hs, hp, hrun => by
      cases hl : step s l with
      | none => simp [run, hl] at hrun
      | some s' =>
        obtain ⟨hs', hiff⟩ := hstep s l s' hs hp hl
        rw [run_cons hl] at hrun
        simp only [Always, Along, hl]
        by_cases hok : ok s l
        · have ih := always_iff_along_of_run hstep ls s' t (hs' hok) (hiff.mpr hok) hrun
          exact ⟨fun h => ⟨hok, ih.mp h.2⟩, fun h => ⟨hp, ih.mpr h.2⟩⟩
        · refine iff_of_false (fun h => hok (hiff.mp ?_)) fun h => hok h.1
          cases ls with
          | nil => exact h.2
          | cons l' ls => exact h.2.1

/-- **Equivalence rule.** When each step from a state with the invariant does
right exactly if it meets `ok`, and such a step keeps the invariant, all steps
of a run that goes through do right exactly if they all meet `ok`. -/
theorem along_iff_along {step : σ → ℓ → Option σ} {right ok : σ → ℓ → Prop} {Inv : σ → Prop}
    (hstep : ∀ s l s', Inv s → step s l = some s' →
      (right s l ↔ ok s l) ∧ (ok s l → Inv s')) :
    ∀ (ls : List ℓ) (s t : σ), Inv s → run step s ls = some t →
      (Along step right s ls ↔ Along step ok s ls)
  | [], _, _, _, _ => Iff.rfl
  | l :: ls, s, t, hs, hrun => by
      cases hl : step s l with
      | none => simp [run, hl] at hrun
      | some s' =>
        obtain ⟨hright, hkeep⟩ := hstep s l s' hs hl
        rw [run_cons hl] at hrun
        simp only [Along, hl, hright]
        constructor
        · intro h
          exact ⟨h.1, (along_iff_along hstep ls s' t (hkeep h.1) hrun).mp h.2⟩
        · intro h
          exact ⟨h.1, (along_iff_along hstep ls s' t (hkeep h.1) hrun).mpr h.2⟩

/-- **Equivalence rule** for steps that may get stuck: it is enough that each
valid step does right exactly if it meets `ok`. -/
theorem along_iff_along_of_valid {step : σ → ℓ → Option σ} {valid right ok : σ → ℓ → Prop}
    {Inv : σ → Prop} (hiff : ∀ s l, Inv s → valid s l → (right s l ↔ ok s l))
    (hstep : ∀ s l s', Inv s → valid s l → ok s l → step s l = some s' → Inv s') :
    ∀ (ls : List ℓ) (s : σ), Inv s → Along step valid s ls →
      (Along step right s ls ↔ Along step ok s ls)
  | [], _, _, _ => Iff.rfl
  | l :: ls, s, hs, ⟨hvalid, hrest⟩ => by
      simp only [Along, hiff s l hs hvalid]
      refine and_congr_right fun hok => ?_
      cases hl : step s l with
      | none => exact Iff.rfl
      | some s' =>
        simp only [hl] at hrest ⊢
        exact along_iff_along_of_valid hiff hstep ls s' (hstep s l s' hs hvalid hok hl) hrest

/-- **Counting rule.** When a step adds to a count exactly if it does not
meet `ok`, the count of a run has grown exactly if some step did not. -/
theorem run_count {step : σ → ℓ → Option σ} {ok : σ → ℓ → Prop} {Inv : σ → Nat → Prop}
    (hstep : ∀ s l s' n, Inv s n → step s l = some s' → ∃ k, Inv s' (n + k) ∧ (k = 0 ↔ ok s l)) :
    ∀ (ls : List ℓ) (s t : σ) (n : Nat), Inv s n → run step s ls = some t →
      ∃ k, Inv t (n + k) ∧ (k = 0 ↔ Along step ok s ls)
  | [], s, t, n, hs, hrun => by
      simp only [run, Option.some.injEq] at hrun
      exact ⟨0, hrun ▸ hs, iff_of_true rfl trivial⟩
  | l :: ls, s, t, n, hs, hrun => by
      cases hl : step s l with
      | none => simp [run, hl] at hrun
      | some s' =>
        obtain ⟨k, hs', hk⟩ := hstep s l s' n hs hl
        rw [run_cons hl] at hrun
        obtain ⟨k', ht, hk'⟩ := run_count hstep ls s' t (n + k) hs' hrun
        refine ⟨k + k', ?_, ?_⟩
        · rw [← Nat.add_assoc]
          exact ht
        · simp only [Along, hl]
          rw [← hk, ← hk', Nat.add_eq_zero_iff]

/-- **Termination rule.** When each step of one party that has not come to
rest decreases a measure, the party comes to rest by itself, within as many
steps as the measure says. -/
theorem exists_run_replicate {step : σ → ℓ → Option σ} {l : ℓ} {Inv rest : σ → Prop} (μ : σ → Nat)
    (hstep : ∀ s, Inv s → ¬rest s → ∃ s', step s l = some s' ∧ Inv s' ∧ μ s' < μ s) :
    ∀ s, Inv s → ∃ n ≤ μ s, ∃ t, run step s (List.replicate n l) = some t ∧ Inv t ∧ rest t := by
  intro s hs
  induction hm : μ s using Nat.strongRecOn generalizing s with
  | ind m ih =>
    by_cases hrest : rest s
    · exact ⟨0, Nat.zero_le _, s, rfl, hs, hrest⟩
    · obtain ⟨s', hl, hs', hlt⟩ := hstep s hs hrest
      obtain ⟨n, hn, t, hrun, ht, hrest'⟩ := ih (μ s') (hm ▸ hlt) s' hs' rfl
      refine ⟨n + 1, by omega, t, ?_, ht, hrest'⟩
      rw [List.replicate_succ, run_cons hl, hrun]

/-! ## Runs with outputs -/

/-- The outputs and the last state of a run of a step that may fail. -/
def tryTrace {ε ρ : Type} (step : σ → ℓ → Except ε (ρ × σ)) :
    σ → List ℓ → Except ε (List ρ × σ)
  | s, [] => .ok ([], s)
  | s, l :: ls => do
      let (r, s) ← step s l
      let (rs, s) ← tryTrace step s ls
      .ok (r :: rs, s)

/-- The same for a step that does not fail. -/
def trace {ρ : Type} (step : σ → ℓ → ρ × σ) : σ → List ℓ → List ρ × σ
  | s, [] => ([], s)
  | s, l :: ls =>
      let (r, s) := step s l
      let (rs, s) := trace step s ls
      (r :: rs, s)

/-- **Refinement rule.** When every step of the concrete system from a
state with the invariant succeeds, keeps the invariant and has the output
and the effect of the abstract step, whole runs correspond. -/
theorem trace_refines {ε ρ τ : Type} {step : σ → ℓ → Except ε (ρ × σ)} {astep : τ → ℓ → ρ × τ}
    (abs : σ → τ) {Inv : σ → Prop} {pre : ℓ → Prop}
    (hstep : ∀ s l, Inv s → pre l →
      ∃ r s', step s l = .ok (r, s') ∧ Inv s' ∧ astep (abs s) l = (r, abs s')) :
    ∀ (ls : List ℓ) (s : σ), Inv s → (∀ l ∈ ls, pre l) →
      ∃ rs s', tryTrace step s ls = .ok (rs, s') ∧ Inv s' ∧ trace astep (abs s) ls = (rs, abs s')
  | [], s, hs, _ => ⟨[], s, rfl, hs, rfl⟩
  | l :: ls, s, hs, hpre => by
      obtain ⟨r, s₁, hl, hs₁, hal⟩ := hstep s l hs (hpre l List.mem_cons_self)
      obtain ⟨rs, s', hls, hs', hals⟩ :=
        trace_refines abs hstep ls s₁ hs₁ fun l' hl' => hpre l' (List.mem_cons_of_mem _ hl')
      refine ⟨r :: rs, s', ?_, hs', ?_⟩
      · rw [tryTrace, hl]
        change (do let (rs, s) ← tryTrace step s₁ ls; .ok (r :: rs, s)) = _
        rw [hls]
        rfl
      · rw [trace, hal]
        change (r :: (trace astep (abs s₁) ls).1, (trace astep (abs s₁) ls).2) = _
        rw [hals]

/-- **Simulation rule.** When related states answer every label alike and
stay related, whole runs answer alike. -/
theorem trace_simulates {ρ τ : Type} {step : σ → ℓ → ρ × σ} {astep : τ → ℓ → ρ × τ}
    {R : σ → τ → Prop}
    (hstep : ∀ s t l, R s t → (step s l).1 = (astep t l).1 ∧ R (step s l).2 (astep t l).2) :
    ∀ (ls : List ℓ) (s : σ) (t : τ), R s t →
      (trace step s ls).1 = (trace astep t ls).1 ∧ R (trace step s ls).2 (trace astep t ls).2
  | [], _, _, h => ⟨rfl, h⟩
  | l :: ls, s, t, h => by
      obtain ⟨hreply, hnext⟩ := hstep s t l h
      obtain ⟨hreplies, hlast⟩ := trace_simulates hstep ls _ _ hnext
      refine ⟨?_, hlast⟩
      show (step s l).1 :: (trace step (step s l).2 ls).1 =
        (astep t l).1 :: (trace astep (astep t l).2 ls).1
      rw [hreply, hreplies]

end TinyTcp.Lib
