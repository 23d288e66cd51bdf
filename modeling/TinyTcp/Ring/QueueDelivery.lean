/-
TinyTcp.Ring.QueueDelivery — exactly-once delivery of the ring queue.

`ExactlyOnce` is the delivery property of a state: every popped value is
the value of a push that had written it completely into the slot before
the pop read the slot, no push is popped twice, and once as many slots
have been consumed as were reserved the popped values are the pushed ones.

`exactlyOnce_of_sound` proves it for every interleaving of any number of
producers and consumers whose steps are all `Sound`. Unrestricted
interleavings do not have it: `overtaking` is a run of two producers in
which the second one, after its confirmation failed, confirms the slot the
first one has reserved but not written.
-/
import TinyTcp.Ring.QueueInvariant
import Mathlib.Data.List.Nodup
import Mathlib.Data.Multiset.Basic

namespace TinyTcp.Ring

open TinyTcp.Lib

variable {ι α : Type}

/-! ## Exactly-once delivery -/

def ExactlyOnce (s : Sys ι α) : Prop :=
  (∀ p ∈ s.hist.pops, ∃ n, p.1 = some n ∧ s.hist.pushes[n]? = some p.2) ∧
  (s.hist.pops.map Prod.fst).Nodup ∧
  (s.hist.pops.length = s.hist.pushes.length →
    (s.hist.pops.map Prod.snd : Multiset α) = (s.hist.pushes : Multiset α))

/-- The popped elements are the first pushes, in order. -/
theorem SharedOk.pops_eq {q : LockFreeRingQueue α} {h : History ι α} (ok : SharedOk q h) :
    h.pops.map Prod.fst = (List.range h.pops.length).map some ∧
    h.pops.map Prod.snd = h.pushes.take h.pops.length := by
  have hle : h.pops.length ≤ h.pushes.length := Nat.le_trans ok.read_le ok.last_le
  constructor
  · refine List.ext_getElem (by simp) fun i hi _ => ?_
    have hi' : i < h.pops.length := by simpa using hi
    have htag := (ok.popped i _ (List.getElem?_eq_getElem hi')).1
    simpa using htag
  · refine List.ext_getElem (by simp [hle]) fun i hi _ => ?_
    have hi' : i < h.pops.length := by simpa using hi
    have hval := (ok.popped i _ (List.getElem?_eq_getElem hi')).2
    obtain ⟨_, heq⟩ := List.getElem?_eq_some_iff.mp hval
    simp [heq]

theorem exactlyOnce_of_shared {s : Sys ι α} (ok : SharedOk s.mem s.hist) : ExactlyOnce s := by
  obtain ⟨htags, hvals⟩ := ok.pops_eq
  refine ⟨fun p hp => ?_, ?_, fun hall => ?_⟩
  · obtain ⟨i, hi⟩ := List.mem_iff_getElem?.mp hp
    exact ⟨i, ok.popped i p hi⟩
  · rw [htags]
    exact List.Nodup.map (Option.some_injective _) List.nodup_range
  · rw [hvals, hall, List.take_length]

section Runs

variable [DecidableEq ι] [Inhabited α]

/-- **Exactly-once delivery**, for every interleaving of sound steps. -/
theorem exactlyOnce_of_sound {size : UInt32} (h1 : 1 ≤ size.toNat) (h31 : size.toNat ≤ 2 ^ 31)
    (moves : List (ι × Label α)) (s : Sys ι α)
    (hsound : Along Sys.step (fun s m => Sound s m = true) (Sys.init ι size) moves)
    (hrun : run Sys.step (Sys.init ι size) moves = some s) : ExactlyOnce s := by
  have hinv : Inv s :=
    run_induction (fun _ _ _ inv hm hstep => step_inv inv hm hstep) moves _ s
      (init_inv h1 h31) hsound hrun
  exact exactlyOnce_of_shared hinv.toSharedOk

/-- A push of `data` by `t` that is not disturbed. -/
def pushMoves {ι α : Type} (t : ι) (data : α) : List (ι × Label α) :=
  (t, .push data) :: List.replicate 6 (t, .go)

/-- A pop by `t` that is not disturbed. -/
def popMoves {ι α : Type} (t : ι) : List (ι × Label α) :=
  (t, .pop) :: List.replicate 5 (t, .go)

def producerA : Fin 3 := 0

def producerB : Fin 3 := 1

def consumer : Fin 3 := 2

/-- Two producers and a consumer taking turns on a queue of four slots. -/
theorem exactlyOnce_two_producers :
    ∃ s, run Sys.step (Sys.init (Fin 3) 4)
        (pushMoves 0 10 ++ pushMoves 1 20 ++ popMoves 2 ++ popMoves 2) = some s ∧
      ExactlyOnce (α := Nat) s := by
  obtain ⟨s, hrun⟩ := Option.isSome_iff_exists.mp (show (run Sys.step (Sys.init (Fin 3) 4)
    (pushMoves 0 10 ++ pushMoves 1 20 ++ popMoves 2 ++ popMoves (α := Nat) 2)).isSome = true
    by decide)
  exact ⟨s, hrun, exactlyOnce_of_sound (by decide) (by decide) _ s (by decide) hrun⟩

end Runs

/-- Producer `0` reserves slot `0`; producer `1` reserves slot `1`, stores,
fails to confirm, tries again and confirms slot `0`; the consumer reads it. -/
def overtaking : List (Fin 3 × Label Nat) :=
  (producerA, .push 10) :: List.replicate 3 (producerA, .go) ++ pushMoves producerB 20 ++
    (consumer, .pop) :: List.replicate 4 (consumer, .go)

/-- The consumer has popped the initial contents of a slot that no push
had written. -/
theorem overtaking_not_exactlyOnce :
    ¬ ∀ (moves : List (Fin 3 × Label Nat)) (s : Sys (Fin 3) Nat),
      run Sys.step (Sys.init (Fin 3) 4) moves = some s → ExactlyOnce s := by
  intro hall
  have hpops : (run Sys.step (Sys.init (Fin 3) 4) overtaking).map (fun s => s.hist.pops)
      = some [(none, 0)] := by decide
  obtain ⟨s, hrun, hs⟩ := Option.map_eq_some_iff.mp hpops
  obtain ⟨hwritten, -⟩ := hall overtaking s hrun
  obtain ⟨n, hn, -⟩ := hwritten (none, 0) (by rw [hs]; simp)
  simp at hn

end TinyTcp.Ring
