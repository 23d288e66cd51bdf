/-
TinyTcp.Lib.SortedList — an ordered container as the list of its elements,
which are in strictly increasing order of their keys.

`insert` leaves the list alone when there is an element with the key. With
`id` for the key this is a set, with `Prod.fst` a map whose first entry for
a key stays. What is inserted in order is appended (`ofList_items`).
-/
import TinyTcp.Lib.OrderedSet
import Mathlib.Data.List.TakeWhile

namespace TinyTcp.Lib

variable {α κ : Type} [LinearOrder κ]

structure SortedList (key : α → κ) where
  items : List α
  sorted : OrderedSet.Sorted key items

namespace SortedList

variable {key : α → κ}

theorem ext_items {l l' : SortedList key} (h : l.items = l'.items) : l = l' := by
  cases l
  cases l'
  cases h
  rfl

def empty : SortedList key := ⟨[], List.Pairwise.nil⟩

/-- Smaller is what has the smaller key. -/
def below (key : α → κ) (a b : α) : Bool := decide (key a < key b)

theorem compares (key : α → κ) (l : List α) (v : α) : OrderedSet.Compares (below key) key l v := by
  intro a _
  simp [below]

/-- The element with the key is found. -/
theorem find_isSome {l : List α} (h : OrderedSet.Sorted key l) {a v : α} (ha : a ∈ l)
    (heq : key a = key v) : (OrderedSet.find (below key) l v).isSome = true := by
  obtain ⟨i, hi, -⟩ := h.find_mem (compares key l a) ha
  have hsame : OrderedSet.find (below key) l v = OrderedSet.find (below key) l a := by
    simp [OrderedSet.find, OrderedSet.lowerBound, below, heq]
  rw [hsame, hi]
  rfl

theorem insert_sorted {l : List α} (h : OrderedSet.Sorted key l) (v : α) :
    OrderedSet.Sorted key (OrderedSet.insert (below key) l v).2 := by
  cases hfind : OrderedSet.find (below key) l v with
  | some i =>
    rw [OrderedSet.insert, hfind]
    exact h
  | none =>
    refine (h.insert_new (compares key l v) fun a ha heq => ?_).1
    have hsome := find_isSome h ha heq
    rw [hfind] at hsome
    cases hsome

def insert (l : SortedList key) (v : α) : SortedList key :=
  ⟨(OrderedSet.insert (below key) l.items v).2, insert_sorted l.sorted v⟩

/-- The elements of a list, one after another. -/
def ofList (l : List α) : SortedList key := l.foldl insert empty

theorem insert_last {l : SortedList key} {v : α} (h : ∀ a ∈ l.items, key a < key v) :
    (l.insert v).items = l.items ++ [v] := by
  have hall : ∀ a ∈ l.items, below key a v = true := by
    intro a ha
    simpa [below] using h a ha
  have hbound : OrderedSet.lowerBound (below key · v) l.items = l.items.length := by
    rw [OrderedSet.lowerBound, List.takeWhile_eq_self_iff.mpr hall]
  have hfind : OrderedSet.find (below key) l.items v = none := by
    simp [OrderedSet.find, hbound]
  simp [insert, OrderedSet.insert, hfind, hbound]

theorem foldl_insert {l : List α} {acc : SortedList key} (h : OrderedSet.Sorted key (acc.items ++ l)) :
    (l.foldl insert acc).items = acc.items ++ l := by
  induction l generalizing acc with
  | nil => simp
  | cons v l ih =>
    have hlast : (acc.insert v).items = acc.items ++ [v] := by
      refine insert_last fun a ha => ?_
      exact (List.pairwise_append.mp h).2.2 a ha v List.mem_cons_self
    have hsorted : OrderedSet.Sorted key ((acc.insert v).items ++ l) := by
      rw [hlast, List.append_assoc]
      exact h
    rw [List.foldl_cons, ih hsorted, hlast, List.append_assoc]
    rfl

/-- What comes in order stays as it comes. -/
theorem ofList_items {l : List α} (h : OrderedSet.Sorted key l) : (ofList l : SortedList key).items = l := by
  have hfold : (l.foldl insert empty).items = [] ++ l := foldl_insert h
  exact hfold

@[simp] theorem ofList_eq (l : SortedList key) : ofList l.items = l := ext_items (ofList_items l.sorted)

end SortedList

end TinyTcp.Lib
