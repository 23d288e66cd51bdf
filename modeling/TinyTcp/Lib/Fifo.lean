/-
TinyTcp.Lib.Fifo — a bounded first-in first-out queue, as the pools and
queues of a program look when each of their operations is one step.

`push` fails on a full queue and `pop` on an empty one. `pushAll` puts
back a list of elements and ignores failures; as long as there is room for
all of them it is an append.
-/
import Mathlib.Data.List.Basic

namespace TinyTcp.Lib

variable {α : Type}

structure Fifo (α : Type) where
  cap : Nat
  items : List α
  deriving DecidableEq

namespace Fifo

variable (q : Fifo α)

def push (a : α) : Bool × Fifo α :=
  if q.items.length < q.cap then (true, { q with items := q.items ++ [a] }) else (false, q)

def pop : Option (α × Fifo α) :=
  match q.items with
  | [] => none
  | a :: rest => some (a, { q with items := rest })

/-- Pushes in order, without looking at the results. -/
def pushAll (as : List α) : Fifo α := as.foldl (fun q a => (q.push a).2) q

theorem push_of_room {q : Fifo α} (h : q.items.length < q.cap) (a : α) :
    q.push a = (true, { q with items := q.items ++ [a] }) := by
  simp only [push, if_pos h]

theorem push_of_full {q : Fifo α} (h : q.cap ≤ q.items.length) (a : α) :
    q.push a = (false, q) := by
  simp only [push, if_neg (Nat.not_lt.mpr h)]

@[simp] theorem pushAll_nil (q : Fifo α) : q.pushAll [] = q := rfl

@[simp] theorem pushAll_cons (q : Fifo α) (a : α) (as : List α) :
    q.pushAll (a :: as) = (q.push a).2.pushAll as := rfl

theorem cap_push (q : Fifo α) (a : α) : (q.push a).2.cap = q.cap := by
  rw [push]
  split
  · rfl
  · rfl

theorem cap_pushAll (q : Fifo α) (as : List α) : (q.pushAll as).cap = q.cap := by
  induction as generalizing q with
  | nil => rfl
  | cons a as ih => rw [pushAll_cons, ih, cap_push]

theorem items_push_sublist (q : Fifo α) (a : α) : (q.push a).2.items.Sublist (q.items ++ [a]) := by
  rw [push]
  split
  · exact .refl _
  · exact List.sublist_append_left _ _

/-- Whether they fit or not, no other elements get in, and none twice. -/
theorem items_pushAll_sublist (q : Fifo α) (as : List α) :
    (q.pushAll as).items.Sublist (q.items ++ as) := by
  induction as generalizing q with
  | nil => simp
  | cons a as ih =>
    rw [pushAll_cons]
    refine (ih _).trans ?_
    have hpush := (q.items_push_sublist a).append_right as
    rw [List.append_assoc] at hpush
    exact hpush

/-- A queue that is not overfull stays so. -/
theorem length_pushAll_le {q : Fifo α} (h : q.items.length ≤ q.cap) (as : List α) :
    (q.pushAll as).items.length ≤ q.cap := by
  induction as generalizing q with
  | nil => exact h
  | cons a as ih =>
    rw [pushAll_cons]
    have hpush : (q.push a).2.items.length ≤ (q.push a).2.cap := by
      rw [cap_push]
      by_cases hroom : q.items.length < q.cap
      · rw [push_of_room hroom, List.length_append]
        exact hroom
      · rw [push_of_full (Nat.le_of_not_lt hroom)]
        exact h
    rw [← q.cap_push a]
    exact ih hpush

/-- With room for all of them, the elements end up at the back in order. -/
theorem pushAll_of_room {as : List α} {q : Fifo α} (h : q.items.length + as.length ≤ q.cap) :
    q.pushAll as = { q with items := q.items ++ as } := by
  induction as generalizing q with
  | nil => simp
  | cons a as ih =>
    simp only [List.length_cons] at h
    rw [pushAll_cons, push_of_room (by omega), ih]
    · simp
    · simp only [List.length_append, List.length_cons, List.length_nil]
      omega

/-- A full queue takes nothing. -/
theorem pushAll_of_full {q : Fifo α} (h : q.cap ≤ q.items.length) (as : List α) :
    q.pushAll as = q := by
  induction as with
  | nil => rfl
  | cons a as ih => rw [pushAll_cons, push_of_full h, ih]

/-- All of them get in exactly if there is room for all of them. -/
theorem items_pushAll_eq_iff {q : Fifo α} {as : List α} :
    (q.pushAll as).items = q.items ++ as ↔ as.length ≤ q.cap - q.items.length := by
  by_cases hfull : q.cap ≤ q.items.length
  · rw [pushAll_of_full hfull, Nat.sub_eq_zero_of_le hfull, Nat.le_zero, List.length_eq_zero_iff,
      List.self_eq_append_right]
  · constructor
    · intro hall
      have hle := length_pushAll_le (q := q) (by omega) as
      rw [hall, List.length_append] at hle
      omega
    · intro hroom
      rw [pushAll_of_room (by omega)]

end Fifo

end TinyTcp.Lib
