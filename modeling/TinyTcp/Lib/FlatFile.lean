/-
TinyTcp.Lib.FlatFile — writing over a stretch of a list, and the flat file
it gives: an array with one position, read and written from there on.

`slice l p n` is the stretch of length `n` at `p`, `splice l p xs` is `l`
with `xs` written over it at `p`. The lemmas say how both behave on an
append (so that a walk over segments can be followed one segment at a
time) and how a splice inside a window looks from outside the window.
-/
import Mathlib.Data.List.Basic

namespace TinyTcp.Lib

variable {α : Type}

/-! ## Slices and splices -/

def slice (l : List α) (p n : Nat) : List α := (l.drop p).take n

def splice (l : List α) (p : Nat) (xs : List α) : List α :=
  l.take p ++ xs ++ l.drop (p + xs.length)

@[simp] theorem slice_zero (l : List α) (p : Nat) : slice l p 0 = [] := by simp [slice]

@[simp] theorem splice_nil (l : List α) (p : Nat) : splice l p [] = l := by simp [splice]

theorem length_slice (l : List α) (p n : Nat) : (slice l p n).length = min n (l.length - p) := by
  simp [slice]

theorem length_slice_of_le {l : List α} {p n : Nat} (h : p + n ≤ l.length) :
    (slice l p n).length = n := by
  rw [length_slice]
  omega

theorem length_splice {l xs : List α} {p : Nat} (h : p + xs.length ≤ l.length) :
    (splice l p xs).length = l.length := by
  simp only [splice, List.length_append, List.length_take, List.length_drop]
  omega

theorem slice_add (l : List α) (p m n : Nat) :
    slice l p (m + n) = slice l p m ++ slice l (p + m) n := by
  simp only [slice, List.take_add, List.drop_drop]

theorem slice_all (l : List α) : slice l 0 l.length = l := by simp [slice]

/-- A stretch that starts in the second part. -/
theorem slice_append_right (l m : List α) (p n : Nat) :
    slice (l ++ m) (l.length + p) n = slice m p n := by
  simp [slice]

/-- A stretch inside the first part. -/
theorem slice_append_left {l : List α} {p n : Nat} (h : p + n ≤ l.length) (m : List α) :
    slice (l ++ m) p n = slice l p n := by
  simp only [slice]
  rw [List.drop_append_of_le_length (by omega), List.take_append_of_le_length]
  simp only [List.length_drop]
  omega

theorem splice_append_right (l m xs : List α) (p : Nat) :
    splice (l ++ m) (l.length + p) xs = l ++ splice m p xs := by
  have hdrop : l.length + p + xs.length = l.length + (p + xs.length) := by omega
  simp only [splice, hdrop, List.take_length_add_append, List.drop_length_add_append,
    List.append_assoc]

theorem splice_append_left {l xs : List α} {p : Nat} (h : p + xs.length ≤ l.length)
    (m : List α) : splice (l ++ m) p xs = splice l p xs ++ m := by
  simp only [splice]
  rw [List.take_append_of_le_length (by omega), List.drop_append_of_le_length h]
  simp

/-- Two splices side by side are one. -/
theorem splice_splice {l xs : List α} {p : Nat} (h : p + xs.length ≤ l.length) (ys : List α) :
    splice (splice l p xs) (p + xs.length) ys = splice l p (xs ++ ys) := by
  have hlen : (l.take p ++ xs).length = p + xs.length := by
    simp only [List.length_append, List.length_take]
    omega
  calc splice (splice l p xs) (p + xs.length) ys
      = splice (l.take p ++ xs ++ l.drop (p + xs.length)) ((l.take p ++ xs).length + 0) ys := by
        rw [hlen]; rfl
    _ = l.take p ++ xs ++ splice (l.drop (p + xs.length)) 0 ys := splice_append_right _ _ _ _
    _ = splice l p (xs ++ ys) := by
        simp [splice, List.drop_drop, Nat.add_assoc]

theorem splice_all {l xs : List α} (h : xs.length = l.length) : splice l 0 xs = xs := by
  simp [splice, h]

/-- A splice at the front. -/
theorem splice_zero (l xs : List α) : splice l 0 xs = xs ++ l.drop xs.length := by
  simp [splice]

/-- Behind a splice nothing has changed. -/
theorem drop_splice {l xs : List α} {p q : Nat} (h : p ≤ l.length) (hq : p + xs.length ≤ q) :
    (splice l p xs).drop q = l.drop q := by
  obtain ⟨k, rfl⟩ := Nat.exists_eq_add_of_le hq
  have hlen : (l.take p ++ xs).length = p + xs.length := by
    rw [List.length_append, List.length_take, Nat.min_eq_left h]
  rw [splice, ← hlen, List.drop_length_add_append, hlen, List.drop_drop]

/-- What was written is what is read back. -/
theorem slice_splice_self {l xs : List α} {p : Nat} (h : p + xs.length ≤ l.length) :
    slice (splice l p xs) p xs.length = xs := by
  have hlen : (l.take p).length = p := by
    simp only [List.length_take]
    omega
  have happ := slice_append_right (l.take p) (xs ++ l.drop (p + xs.length)) 0 xs.length
  rw [hlen, Nat.add_zero] at happ
  rw [splice, List.append_assoc, happ, slice_append_left (by omega), slice_all]

/-- A splice inside a window, seen through the window. -/
theorem slice_splice_inside {l xs : List α} {d n k : Nat} (hn : d + n ≤ l.length)
    (hk : k + xs.length ≤ n) :
    slice (splice l (d + k) xs) d n = splice (slice l d n) k xs := by
  have hd : (l.take d).length = d := by
    simp only [List.length_take]
    omega
  have hl : l = l.take d ++ (slice l d n ++ l.drop (d + n)) := by
    simp only [slice, ← List.drop_drop, List.take_append_drop]
  have hw : (slice l d n).length = n := length_slice_of_le hn
  have hsp : splice l (d + k) xs = l.take d ++ (splice (slice l d n) k xs ++ l.drop (d + n)) := by
    have h := splice_append_right (l.take d) (slice l d n ++ l.drop (d + n)) xs k
    rw [hd, ← hl] at h
    rw [h, splice_append_left (by omega)]
  have hw' : (splice (slice l d n) k xs).length = n := by
    rw [length_splice (by omega), hw]
  have h := slice_append_right (l.take d) (splice (slice l d n) k xs ++ l.drop (d + n)) 0 n
  rw [hd, Nat.add_zero] at h
  have hall := slice_all (splice (slice l d n) k xs)
  rw [hw'] at hall
  rw [hsp, h, slice_append_left (by omega), hall]

/-! ## Flat files -/

/-- An array and a position in it. -/
structure FlatFile (α : Type) where
  data : List α
  pos : Nat
  deriving DecidableEq

namespace FlatFile

variable (f : FlatFile α)

/-- How many elements are left from the position on. -/
def remain : Nat := f.data.length - f.pos

/-- The next `n` elements; there have to be as many, and at least one. -/
def read (n : Nat) : Option (List α × FlatFile α) :=
  if 0 < n ∧ n ≤ f.remain then some (slice f.data f.pos n, { f with pos := f.pos + n })
  else none

/-- `xs` over the next elements. -/
def write (xs : List α) : Option (FlatFile α) :=
  if 0 < xs.length ∧ xs.length ≤ f.remain then
    some { data := splice f.data f.pos xs, pos := f.pos + xs.length }
  else none

def seek (offset : Nat) : Option (FlatFile α) :=
  if offset ≤ f.data.length then some { f with pos := offset } else none

/-- The next `n` elements of `src` over those of `f`; both move on. -/
def copy (src : FlatFile α) (n : Nat) : Option (FlatFile α × FlatFile α) :=
  if n ≤ f.remain ∧ n ≤ src.remain then
    some ({ data := splice f.data f.pos (slice src.data src.pos n), pos := f.pos + n },
      { src with pos := src.pos + n })
  else none

end FlatFile

end TinyTcp.Lib
