/-
TinyTcp.Lib.Decimal — decimal numbers as the bytes of their characters.

`decimal n` is the text of `n`, `value` the number a text of digits stands
for, and `value_decimal` reads the one back as the other. `accumulate` is
what a loop over the characters computes in eight bits: the value modulo
`2 ^ 8` (`accumulate_eq`), whatever the number of digits.
-/
import Mathlib.Data.List.Basic
import Mathlib.Tactic.Common

namespace TinyTcp.Lib

/-- Between the codes of `0` and of `9`. -/
def isDigit (c : UInt8) : Bool := 48 ≤ c && c ≤ 57

/-- The number a digit stands for. -/
def digit (c : UInt8) : Nat := c.toNat - 48

/-- The number the digits `ds` stand for behind the digits of `v`. -/
def valueFrom (v : Nat) (ds : List UInt8) : Nat := ds.foldl (fun v c => 10 * v + digit c) v

def value (ds : List UInt8) : Nat := valueFrom 0 ds

/-- The text of a number. -/
def decimal (n : Nat) : List UInt8 := (Nat.toDigits 10 n).map Char.toUInt8

@[simp] theorem valueFrom_nil (v : Nat) : valueFrom v [] = v := rfl

@[simp] theorem valueFrom_cons (v : Nat) (c : UInt8) (ds : List UInt8) :
    valueFrom v (c :: ds) = valueFrom (10 * v + digit c) ds := by
  rw [valueFrom, valueFrom, List.foldl_cons]

theorem value_concat (ds : List UInt8) (c : UInt8) : value (ds ++ [c]) = 10 * value ds + digit c := by
  simp [value, valueFrom]

theorem isDigit_iff {c : UInt8} : isDigit c = true ↔ 48 ≤ c.toNat ∧ c.toNat ≤ 57 := by
  simp [isDigit, UInt8.le_iff_toNat_le]

/-! ## Printing -/

/-- The character of a digit, as a byte. -/
theorem digitChar_toUInt8 : ∀ d < 10, isDigit (Nat.digitChar d).toUInt8 = true ∧
    digit (Nat.digitChar d).toUInt8 = d := by
  decide

/-- The last digit stands at the end. -/
theorem decimal_eq (n : Nat) :
    decimal n = (if n < 10 then [] else decimal (n / 10)) ++ [(Nat.digitChar (n % 10)).toUInt8] := by
  rw [decimal, Nat.toDigits_eq_if (by decide)]
  split
  · next hlt => rw [Nat.mod_eq_of_lt hlt, List.map_singleton, List.nil_append]
  · rw [List.map_append, List.map_singleton, decimal]

theorem decimal_digits (n : Nat) : ∀ c ∈ decimal n, isDigit c = true := by
  induction n using Nat.strongRecOn with
  | _ n ih =>
    intro c hc
    have hlast := (digitChar_toUInt8 (n % 10) (Nat.mod_lt n (by decide))).1
    rw [decimal_eq, List.mem_append, List.mem_singleton] at hc
    rcases hc with hinit | rfl
    · split at hinit
      · cases hinit
      · exact ih (n / 10) (by omega) c hinit
    · exact hlast

/-- The text of a number stands for it. -/
theorem value_decimal (n : Nat) : value (decimal n) = n := by
  induction n using Nat.strongRecOn with
  | _ n ih =>
    have hlast := (digitChar_toUInt8 (n % 10) (Nat.mod_lt n (by decide))).2
    rw [decimal_eq, value_concat, hlast]
    split
    · rw [value, valueFrom_nil]
      omega
    · rw [ih (n / 10) (by omega)]
      omega

/-! ## Eight bits -/

/-- The digits `ds` taken in one after the other, in eight bits. -/
def accumulate (v : UInt8) (ds : List UInt8) : UInt8 := ds.foldl (fun v c => v * 10 + (c - 48)) v

@[simp] theorem accumulate_nil (v : UInt8) : accumulate v [] = v := rfl

@[simp] theorem accumulate_cons (v c : UInt8) (ds : List UInt8) :
    accumulate v (c :: ds) = accumulate (v * 10 + (c - 48)) ds := by
  rw [accumulate, accumulate, List.foldl_cons]

/-- One more digit. -/
theorem ofNat_digit (v : Nat) {c : UInt8} (hc : isDigit c = true) :
    UInt8.ofNat (10 * v + digit c) = UInt8.ofNat v * 10 + (c - 48) := by
  obtain ⟨hlo, -⟩ := isDigit_iff.mp hc
  have hsub : (c - 48).toNat = c.toNat - 48 :=
    UInt8.toNat_sub_of_le c 48 (UInt8.le_iff_toNat_le.mpr hlo)
  apply UInt8.toNat_inj.mp
  rw [UInt8.toNat_add, UInt8.toNat_mul, UInt8.toNat_ofNat', UInt8.toNat_ofNat', hsub, digit]
  have hten : (10 : UInt8).toNat = 10 := rfl
  rw [hten]
  omega

theorem accumulate_ofNat (v : Nat) (ds : List UInt8) (hds : ∀ c ∈ ds, isDigit c = true) :
    accumulate (UInt8.ofNat v) ds = UInt8.ofNat (valueFrom v ds) := by
  induction ds generalizing v with
  | nil => rfl
  | cons c ds ih =>
    rw [accumulate_cons, valueFrom_cons, ← ofNat_digit v (hds c List.mem_cons_self)]
    exact ih _ fun d hd => hds d (List.mem_cons_of_mem c hd)

/-- The value, modulo `2 ^ 8`. -/
theorem accumulate_eq {ds : List UInt8} (hds : ∀ c ∈ ds, isDigit c = true) :
    accumulate 0 ds = UInt8.ofNat (value ds) :=
  accumulate_ofNat 0 ds hds

end TinyTcp.Lib
