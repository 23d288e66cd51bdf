/-
TinyTcp.Lib.Wrap32 — free-running 32-bit counters and power-of-two masks.

A counter that is only ever incremented is the truncation `UInt32.ofNat n`
of the number `n` of its increments. Two truncations are equal exactly
when the numbers agree modulo `2 ^ 32` (`ofNat_eq_iff`), so numbers less
than `2 ^ 32` apart are told apart by them (`ofNat_inj_of_near`). Masking
with `m - 1` for a power of two `m` is reduction modulo `m`
(`toNat_and_mask`), also of the number behind a truncation, because `m`
divides `2 ^ 32` (`and_mask_eq_iff`). A number below `2 ^ 31` is the same
read as signed and as unsigned.

The second half is the smear-and-subtract computation of the greatest
power of two below a 32-bit number: after `k` doublings of the shift, bit
`i` says whether one of the bits `i .. i + k - 1` was set (`SmearedBy`).
-/
import Mathlib.Algebra.Group.Nat.Defs
import Mathlib.Data.Nat.Bitwise

namespace TinyTcp.Lib

/-! ## Truncated counters -/

theorem ofNat_eq_iff (a b : Nat) :
    UInt32.ofNat a = UInt32.ofNat b ↔ a % 2 ^ 32 = b % 2 ^ 32 := by
  rw [← UInt32.toNat_inj, UInt32.toNat_ofNat', UInt32.toNat_ofNat']

/-- Truncation tells numbers less than `2 ^ 32` apart from each other. -/
theorem ofNat_inj_of_near {a b : Nat} (hab : a ≤ b) (hnear : b < a + 2 ^ 32)
    (h : UInt32.ofNat a = UInt32.ofNat b) : a = b := by
  rw [ofNat_eq_iff] at h
  omega

/-- Residues modulo `m` tell numbers less than `m` apart from each other. -/
theorem mod_inj_of_near {a b m : Nat} (hab : a ≤ b) (hnear : b < a + m)
    (h : a % m = b % m) : a = b := by
  have hdvd : m ∣ b - a := Nat.dvd_of_mod_eq_zero (Nat.sub_mod_eq_zero_of_mod_eq h.symm)
  have hzero : b - a = 0 := Nat.eq_zero_of_dvd_of_lt hdvd (by omega)
  omega

/-! ## Signed and unsigned -/

theorem toNat_toUInt32 {x : Int32} (h : 0 ≤ x.toInt) : (x.toUInt32.toNat : Int) = x.toInt := by
  have hlt := x.toUInt32.toNat_lt
  have heq : x.toInt = if 2 * x.toUInt32.toNat < 2 ^ 32 then (x.toUInt32.toNat : Int)
      else (x.toUInt32.toNat : Int) - (2 ^ 32 : Nat) := BitVec.toInt_eq_toNat_cond x.toBitVec
  rw [heq] at h ⊢
  split at h
  · rw [if_pos ‹_›]
  · omega

theorem toInt_toInt32 {x : UInt32} (h : x.toNat < 2 ^ 31) : x.toInt32.toInt = x.toNat := by
  have heq : x.toInt32.toInt = if 2 * x.toNat < 2 ^ 32 then (x.toNat : Int)
      else (x.toNat : Int) - (2 ^ 32 : Nat) := BitVec.toInt_eq_toNat_cond x.toBitVec
  rw [heq, if_pos (by omega)]

/-! ## Power-of-two masks -/

/-- A 32-bit power of two with at least two slots. -/
def IsPowTwo (m : UInt32) : Prop := ∃ k, 1 ≤ k ∧ k ≤ 31 ∧ m.toNat = 2 ^ k

theorem IsPowTwo.two_le {m : UInt32} (h : IsPowTwo m) : 2 ≤ m.toNat := by
  obtain ⟨k, hk, -, hm⟩ := h
  rw [hm]
  calc 2 = 2 ^ 1 := rfl
    _ ≤ 2 ^ k := Nat.pow_le_pow_right (by decide) hk

theorem IsPowTwo.le {m : UInt32} (h : IsPowTwo m) : m.toNat ≤ 2 ^ 31 := by
  obtain ⟨k, -, hk, hm⟩ := h
  rw [hm]
  exact Nat.pow_le_pow_right (by decide) hk

theorem IsPowTwo.dvd {m : UInt32} (h : IsPowTwo m) : m.toNat ∣ 2 ^ 32 := by
  obtain ⟨k, -, hk, hm⟩ := h
  rw [hm]
  exact Nat.pow_dvd_pow 2 (by omega)

theorem IsPowTwo.toNat_sub_one {m : UInt32} (h : IsPowTwo m) : (m - 1).toNat = m.toNat - 1 := by
  have hle : (1 : UInt32) ≤ m := by
    rw [UInt32.le_iff_toNat_le]
    have := h.two_le
    simpa using (by omega : 1 ≤ m.toNat)
  rw [UInt32.toNat_sub_of_le _ _ hle]
  rfl

/-- Masking with `m - 1` is reduction modulo `m`. -/
theorem toNat_and_mask {m : UInt32} (h : IsPowTwo m) (x : UInt32) :
    (x &&& (m - 1)).toNat = x.toNat % m.toNat := by
  rw [UInt32.toNat_and, h.toNat_sub_one]
  obtain ⟨k, -, -, hm⟩ := h
  rw [hm]
  exact Nat.and_two_pow_sub_one_eq_mod _ _

/-- Two truncated counters fall into one slot exactly when the counted
numbers do. -/
theorem and_mask_eq_iff {m : UInt32} (h : IsPowTwo m) (a b : Nat) :
    UInt32.ofNat a &&& (m - 1) = UInt32.ofNat b &&& (m - 1) ↔ a % m.toNat = b % m.toNat := by
  rw [← UInt32.toNat_inj, toNat_and_mask h, toNat_and_mask h, UInt32.toNat_ofNat',
    UInt32.toNat_ofNat', Nat.mod_mod_of_dvd a h.dvd, Nat.mod_mod_of_dvd b h.dvd]

/-- Within one turn of the ring, different numbers have different slots. -/
theorem and_mask_inj_of_near {m : UInt32} (h : IsPowTwo m) {a b : Nat} (hab : a ≤ b)
    (hnear : b < a + m.toNat)
    (heq : UInt32.ofNat a &&& (m - 1) = UInt32.ofNat b &&& (m - 1)) : a = b :=
  mod_inj_of_near hab hnear ((and_mask_eq_iff h a b).mp heq)

/-! ## Masks of low bits

The mask alone, without the power of two it comes from: `size - 1` is such
a mask also for `size = 0`, where it keeps all 32 bits. -/

/-- The mask keeps the residue modulo `c`. -/
def IsMask (mask : UInt32) (c : Nat) : Prop := ∃ k ≤ 32, c = 2 ^ k ∧ mask.toNat = c - 1

theorem IsMask.pos {mask : UInt32} {c : Nat} (h : IsMask mask c) : 0 < c := by
  obtain ⟨k, -, rfl, -⟩ := h
  exact Nat.two_pow_pos k

theorem IsMask.le {mask : UInt32} {c : Nat} (h : IsMask mask c) : c ≤ 2 ^ 32 := by
  obtain ⟨k, hk, rfl, -⟩ := h
  exact Nat.pow_le_pow_right (by decide) hk

theorem IsMask.and_eq_iff {mask : UInt32} {c : Nat} (h : IsMask mask c) (a b : Nat) :
    UInt32.ofNat a &&& mask = UInt32.ofNat b &&& mask ↔ a % c = b % c := by
  obtain ⟨k, hk, rfl, hmask⟩ := h
  have hdvd : 2 ^ k ∣ 2 ^ 32 := Nat.pow_dvd_pow 2 hk
  rw [← UInt32.toNat_inj, UInt32.toNat_and, UInt32.toNat_and, hmask, UInt32.toNat_ofNat',
    UInt32.toNat_ofNat', Nat.and_two_pow_sub_one_eq_mod, Nat.and_two_pow_sub_one_eq_mod,
    Nat.mod_mod_of_dvd a hdvd, Nat.mod_mod_of_dvd b hdvd]

/-- Within one turn, different numbers have different residues. -/
theorem IsMask.and_inj {mask : UInt32} {c : Nat} (h : IsMask mask c) {a b : Nat} (hab : a ≤ b)
    (hnear : b < a + c) (heq : UInt32.ofNat a &&& mask = UInt32.ofNat b &&& mask) : a = b :=
  mod_inj_of_near hab hnear ((h.and_eq_iff a b).mp heq)

/-- The difference of two truncated counters that are close to each other. -/
theorem toNat_ofNat_sub {a b : Nat} (hab : a ≤ b) (hnear : b < a + 2 ^ 32) :
    (UInt32.ofNat b - UInt32.ofNat a).toNat = b - a := by
  rw [UInt32.toNat_sub, UInt32.toNat_ofNat', UInt32.toNat_ofNat']
  omega

/-! ## The greatest power of two below a number -/

/-- Bit `i` of `y` says whether one of the `k` bits of `x` from `i` on is set. -/
def SmearedBy (k x y : Nat) : Prop := ∀ i, y.testBit i = true ↔ ∃ j < k, x.testBit (i + j) = true

theorem smearedBy_one (x : Nat) : SmearedBy 1 x x := by
  intro i
  constructor
  · intro h
    exact ⟨0, by decide, h⟩
  · rintro ⟨j, hj, h⟩
    have : j = 0 := by omega
    subst this
    simpa using h

/-- Or-ing in the number shifted by `k` doubles the smeared stretch. -/
theorem SmearedBy.double {k x y : Nat} (h : SmearedBy k x y) :
    SmearedBy (2 * k) x (y ||| y >>> k) := by
  intro i
  rw [Nat.testBit_or, Nat.testBit_shiftRight, Bool.or_eq_true, h i, h (k + i)]
  constructor
  · rintro (⟨j, hj, hb⟩ | ⟨j, hj, hb⟩)
    · exact ⟨j, by omega, hb⟩
    · exact ⟨k + j, by omega, by rw [show i + (k + j) = k + i + j by omega]; exact hb⟩
  · rintro ⟨j, hj, hb⟩
    by_cases hlow : j < k
    · exact .inl ⟨j, hlow, hb⟩
    · exact .inr ⟨j - k, by omega, by rw [show k + i + (j - k) = i + j by omega]; exact hb⟩

/-- A 32-bit number smeared over 32 bits is all ones from its top bit down. -/
theorem SmearedBy.eq_pred_two_pow {x y : Nat} (h : SmearedBy 32 x y) (hx : 0 < x)
    (hx32 : x < 2 ^ 32) : y = 2 ^ (Nat.log2 x + 1) - 1 := by
  apply Nat.eq_of_testBit_eq
  intro i
  rw [Nat.testBit_two_pow_sub_one]
  by_cases hi : i < Nat.log2 x + 1
  · rw [decide_eq_true hi, h i]
    have hlog : Nat.log2 x < 32 := (Nat.log2_lt (by omega)).mpr hx32
    refine ⟨Nat.log2 x - i, by omega, ?_⟩
    rw [show i + (Nat.log2 x - i) = Nat.log2 x by omega]
    exact Nat.testBit_log2 (by omega)
  · rw [decide_eq_false hi, ← Bool.not_eq_true, h i]
    rintro ⟨j, -, hb⟩
    have hlt : x < 2 ^ (i + j) :=
      lt_of_lt_of_le Nat.lt_log2_self (Nat.pow_le_pow_right (by decide) (by omega))
    rw [Nat.testBit_lt_two_pow hlt] at hb
    exact Bool.false_ne_true hb

end TinyTcp.Lib
