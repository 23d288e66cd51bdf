/-
TinyTcp.Lib.Pool — a pool hands out the elements of a fixed list and takes
them back.

The free elements are in a bounded queue, the others are `live`. A pool is
`Balanced` when free and live elements together are the elements there are
(`perm`) and the queue has room for all of them (`room`). Then `alloc`
fails exactly when all elements are live, an element that is given back
always fits (`Balanced.release`), and every sequence of the two keeps the
balance. `count_visited_iff` is about going round a queue: every element
comes up once exactly if there are as many rounds as elements.
-/
import TinyTcp.Lib.Fifo
import Mathlib.Data.List.Perm.Basic
import Mathlib.Data.List.Nodup

namespace TinyTcp.Lib

variable {α : Type}

structure Pool (α : Type) where
  free : Fifo α
  live : List α

namespace Pool

def alloc (p : Pool α) : Option α × Pool α :=
  match p.free.pop with
  | some (a, free) => (some a, { free := free, live := a :: p.live })
  | none => (none, p)

/-- The caller gives an element back. -/
def release [DecidableEq α] (p : Pool α) (a : α) : Bool × Pool α :=
  ((p.free.push a).1, { free := (p.free.push a).2, live := p.live.erase a })

structure Balanced (all : List α) (p : Pool α) : Prop where
  perm : (p.free.items ++ p.live).Perm all
  room : all.length ≤ p.free.cap

/-- All elements are free. -/
theorem balanced_full {all : List α} {cap : Nat} (h : all.length ≤ cap) :
    Balanced all ⟨⟨cap, all⟩, []⟩ where
  perm := by rw [List.append_nil]
  room := h

variable {all : List α} {p : Pool α} {a : α}

theorem Balanced.length (h : Balanced all p) :
    p.free.items.length + p.live.length = all.length := by
  rw [← List.length_append]
  exact h.perm.length_eq

theorem Balanced.mem_of_live (h : Balanced all p) (ha : a ∈ p.live) : a ∈ all :=
  h.perm.mem_iff.mp (List.mem_append_right _ ha)

theorem Balanced.mem_of_free (h : Balanced all p) (ha : a ∈ p.free.items) : a ∈ all :=
  h.perm.mem_iff.mp (List.mem_append_left _ ha)

theorem Balanced.nodup_live (h : Balanced all p) (hall : all.Nodup) : p.live.Nodup :=
  (List.nodup_append.mp (h.perm.nodup_iff.mpr hall)).2.1

theorem alloc_cons {rest : List α} (h : p.free.items = a :: rest) :
    p.alloc = (some a, ⟨{ p.free with items := rest }, a :: p.live⟩) := by
  rw [alloc, Fifo.pop, h]

theorem alloc_nil (h : p.free.items = []) : p.alloc = (none, p) := by
  rw [alloc, Fifo.pop, h]

/-- An element that is handed out was free. -/
theorem mem_of_alloc (h : p.alloc.1 = some a) : a ∈ p.free.items := by
  cases hitems : p.free.items with
  | nil =>
    rw [alloc_nil hitems] at h
    cases h
  | cons b rest =>
    rw [alloc_cons hitems] at h
    cases h
    exact List.mem_cons_self

theorem Balanced.alloc (h : Balanced all p) : Balanced all p.alloc.2 := by
  cases hitems : p.free.items with
  | nil =>
    rw [alloc_nil hitems]
    exact h
  | cons a rest =>
    rw [alloc_cons hitems]
    refine { perm := List.perm_middle.trans ?_, room := h.room }
    have hperm := h.perm
    rw [hitems] at hperm
    exact hperm

theorem Balanced.alloc_none_iff (h : Balanced all p) :
    p.alloc.1 = none ↔ p.live.length = all.length := by
  have hlen := h.length
  cases hitems : p.free.items with
  | nil =>
    rw [hitems, List.length_nil, Nat.zero_add] at hlen
    rw [alloc_nil hitems]
    exact iff_of_true rfl hlen
  | cons a rest =>
    rw [hitems, List.length_cons] at hlen
    rw [alloc_cons hitems]
    exact iff_of_false (Option.some_ne_none a) (by omega)

/-- There is room for what is given back, because it is not in the queue. -/
theorem Balanced.release [DecidableEq α] (h : Balanced all p) (ha : a ∈ p.live) :
    (p.release a).1 = true ∧ Balanced all (p.release a).2 := by
  have hlen := h.length
  have hpos := List.length_pos_of_mem ha
  have hroom := h.room
  have hpush := Fifo.push_of_room (q := p.free) (by omega) a
  unfold Pool.release
  rw [hpush]
  refine ⟨rfl, { perm := ?_, room := h.room }⟩
  show (p.free.items ++ [a] ++ p.live.erase a).Perm all
  rw [List.append_assoc, List.singleton_append]
  exact ((List.perm_cons_erase ha).symm.append_left _).trans h.perm

end Pool

/-! ## Going round a queue

Somebody who takes the first element, looks at it and puts it back at the end. -/

/-- The elements that are looked at in so many rounds. -/
def visited : Nat → List α → List α
  | 0, _ => []
  | _ + 1, [] => []
  | rounds + 1, a :: rest => a :: visited rounds (rest ++ [a])

theorem length_visited {items : List α} (h : items ≠ []) (rounds : Nat) :
    (visited rounds items).length = rounds := by
  induction rounds generalizing items with
  | zero => rfl
  | succ rounds ih =>
    cases items with
    | nil => exact absurd rfl h
    | cons a rest => rw [visited, List.length_cons, ih (by simp)]

theorem mem_of_mem_visited {rounds : Nat} {items : List α} {a : α} (h : a ∈ visited rounds items) :
    a ∈ items := by
  induction rounds generalizing items with
  | zero => exact nomatch h
  | succ rounds ih =>
    cases items with
    | nil => exact nomatch h
    | cons b rest =>
      rcases List.mem_cons.mp h with rfl | h
      · exact List.mem_cons_self
      · simpa [or_comm] using ih h

theorem visited_append (items more : List α) :
    visited items.length (items ++ more) = items := by
  induction items generalizing more with
  | nil => rfl
  | cons a items ih =>
    show a :: visited items.length (items ++ more ++ [a]) = a :: items
    rw [List.append_assoc, ih]

/-- One whole turn. -/
theorem visited_length (items : List α) : visited items.length items = items := by
  simpa using visited_append items []

/-- Every element is looked at once exactly if there are as many rounds as elements. -/
theorem count_visited_iff [DecidableEq α] {items : List α} (hne : items ≠ [])
    (hnodup : items.Nodup) (rounds : Nat) :
    (∀ a ∈ items, (visited rounds items).count a = 1) ↔ rounds = items.length := by
  constructor
  · intro h
    have hperm : (visited rounds items).Perm items := by
      refine List.perm_iff_count.mpr fun a => ?_
      by_cases ha : a ∈ items
      · rw [h a ha, List.count_eq_one_of_mem hnodup ha]
      · rw [List.count_eq_zero_of_not_mem ha,
          List.count_eq_zero_of_not_mem fun hmem => ha (mem_of_mem_visited hmem)]
    rw [← hperm.length_eq, length_visited hne]
  · rintro rfl a ha
    rw [visited_length, List.count_eq_one_of_mem hnodup ha]

end TinyTcp.Lib
