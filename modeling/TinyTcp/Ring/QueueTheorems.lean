/-
TinyTcp.Ring.QueueTheorems — the size computation of the queue
constructor.

`queueSize_isPowTwo`: for every requested size from `1` to `2 ^ 31` the
32-bit shifts and subtractions give a power of two between `2` and
`2 ^ 31`, so masking with `size - 1` is reduction modulo the size and the
size divides the range of the indices. `queueSize_isLeast`: it is the least
power of two that is large enough. `create_rounds` says both of the object
the constructor builds.
-/
import TinyTcp.Ring.Queue
import Mathlib.Order.Bounds.Defs

namespace TinyTcp.Ring

open TinyTcp.Lib

/-! ## The size of a constructed queue -/

theorem toNat_sub_one {num : UInt32} (h : 1 ≤ num.toNat) : (num - 1).toNat = num.toNat - 1 := by
  rw [UInt32.toNat_sub_of_le _ _ (by rw [UInt32.le_iff_toNat_le]; simpa using h)]
  rfl

theorem isPowerOfTwo_iff {num : UInt32} (h : 1 ≤ num.toNat) :
    isPowerOfTwo num = true ↔ num.toNat.isPowerOfTwo := by
  have hne : num ≠ 0 := by
    rintro rfl
    simp at h
  have hand : (num &&& (num - 1)) = 0 ↔ num.toNat &&& (num.toNat - 1) = 0 := by
    rw [← UInt32.toNat_inj, UInt32.toNat_and, toNat_sub_one h]
    rfl
  simp only [isPowerOfTwo, Bool.and_eq_true, bne_iff_ne, beq_iff_eq, hand]
  rw [Nat.and_sub_one_eq_zero_iff_isPowerOfTwo (by omega)]
  exact ⟨And.right, fun hp => ⟨hne, hp⟩⟩

/-- One smearing step of `ceil_power_of_two`. -/
theorem smearedBy_or_shift {k x : Nat} {y s : UInt32} (hs : s.toNat = k) (hk : k < 32)
    (h : SmearedBy k x y.toNat) : SmearedBy (2 * k) x (y ||| (y >>> s)).toNat := by
  rw [UInt32.toNat_or, UInt32.toNat_shiftRight, hs, Nat.mod_eq_of_lt hk]
  exact h.double

/-- `ceil_power_of_two` keeps the top bit of its argument. -/
theorem toNat_ceilPowerOfTwo {num : UInt32} (h : 1 ≤ num.toNat) :
    (ceilPowerOfTwo num).toNat = 2 ^ Nat.log2 num.toNat := by
  have h32 := smearedBy_or_shift (s := 16) rfl (by decide) <|
    smearedBy_or_shift (s := 8) rfl (by decide) <|
    smearedBy_or_shift (s := 4) rfl (by decide) <|
    smearedBy_or_shift (s := 2) rfl (by decide) <|
    smearedBy_or_shift (s := 1) rfl (by decide) <| smearedBy_one num.toNat
  have hones := h32.eq_pred_two_pow h num.toNat_lt
  unfold ceilPowerOfTwo
  dsimp only
  rw [UInt32.toNat_sub_of_le, UInt32.toNat_shiftRight, hones]
  · have hpow := Nat.pow_succ 2 (Nat.log2 num.toNat)
    have hpos := Nat.two_pow_pos (Nat.log2 num.toNat)
    simp only [UInt32.reduceToNat, Nat.one_mod, Nat.shiftRight_one]
    omega
  · rw [UInt32.le_iff_toNat_le, UInt32.toNat_shiftRight, hones]
    simp only [UInt32.reduceToNat, Nat.one_mod, Nat.shiftRight_one]
    omega

/-- The doubled predecessor of `round_uppower_of_two` does not overflow. -/
theorem toNat_roundUppowerOfTwo {num : UInt32} (h2 : 2 ≤ num.toNat) (h31 : num.toNat ≤ 2 ^ 31) :
    (roundUppowerOfTwo num).toNat = 2 ^ (Nat.log2 (num.toNat - 1) + 1) := by
  have hshift : ((num - 1) <<< 1).toNat = 2 * (num.toNat - 1) := by
    rw [UInt32.toNat_shiftLeft, toNat_sub_one (by omega)]
    simp only [UInt32.reduceToNat, Nat.one_mod, Nat.shiftLeft_eq]
    omega
  unfold roundUppowerOfTwo
  rw [toNat_ceilPowerOfTwo (by omega), hshift, Nat.log2_two_mul (by omega)]

/-- Every size the constructor is asked for gives a power of two. -/
theorem queueSize_isPowTwo {size : UInt32} (h1 : 1 ≤ size.toNat) (h31 : size.toNat ≤ 2 ^ 31) :
    IsPowTwo (queueSize size) := by
  unfold queueSize
  split
  · exact ⟨1, by decide, by decide, rfl⟩
  · rename_i hle
    have h2 : 1 < size.toNat := by simpa [UInt32.le_iff_toNat_le] using hle
    split
    · rename_i hpow
      obtain ⟨k, hk⟩ := (isPowerOfTwo_iff h1).mp hpow
      refine ⟨k, ?_, ?_, hk⟩
      · by_contra hlt
        have : k = 0 := by omega
        subst this
        omega
      · by_contra hgt
        have := Nat.pow_le_pow_right (show 0 < 2 by decide) (show 32 ≤ k by omega)
        omega
    · refine ⟨Nat.log2 (size.toNat - 1) + 1, by omega, ?_, toNat_roundUppowerOfTwo h2 h31⟩
      have := (Nat.log2_lt (n := size.toNat - 1) (k := 31) (by omega)).mpr (by omega)
      omega

/-- Above `2 ^ 31` the doubled predecessor overflows. -/
theorem queueSize_of_large {size : UInt32} (h31 : 2 ^ 31 < size.toNat) :
    queueSize size = ceilPowerOfTwo ((size - 1) <<< 1) := by
  have hlt := size.toNat_lt
  have hone : ¬size ≤ 1 := by
    intro hle
    have : size.toNat ≤ 1 := UInt32.le_iff_toNat_le.mp hle
    omega
  have hnot : isPowerOfTwo size = false := by
    by_contra hp
    have htrue : isPowerOfTwo size = true := by simpa using hp
    obtain ⟨k, hk⟩ := (isPowerOfTwo_iff (by omega)).mp htrue
    rcases Nat.lt_or_ge 31 k with hgt | hle
    · have := Nat.pow_le_pow_right (show 0 < 2 by decide) (show 32 ≤ k by omega)
      omega
    · have := Nat.pow_le_pow_right (show 0 < 2 by decide) hle
      omega
  rw [queueSize, if_neg hone, hnot]
  rfl

/-- A size that is not zero is a power of two, whatever was asked for. -/
theorem queueSize_isPowTwo_of_ne_zero {size : UInt32} (hzero : queueSize size ≠ 0) :
    IsPowTwo (queueSize size) := by
  have hlt := size.toNat_lt
  rcases Nat.lt_or_ge (2 ^ 31) size.toNat with h31 | h31
  · have hne : size.toNat ≠ 2 ^ 31 + 1 := by
      intro heq
      have hsize : size = 2147483649 := UInt32.toNat_inj.mp heq
      rw [hsize] at hzero
      exact hzero (by decide)
    have hshift : ((size - 1) <<< 1).toNat = 2 * (size.toNat - 1) - 2 ^ 32 := by
      rw [UInt32.toNat_shiftLeft, toNat_sub_one (by omega)]
      simp only [UInt32.reduceToNat, Nat.one_mod, Nat.shiftLeft_eq]
      omega
    have htwo : 2 ≤ ((size - 1) <<< 1).toNat := by omega
    have hceil : (ceilPowerOfTwo ((size - 1) <<< 1)).toNat = 2 ^ Nat.log2 ((size - 1) <<< 1).toNat :=
      toNat_ceilPowerOfTwo (by omega)
    have hlow := (Nat.le_log2 (n := ((size - 1) <<< 1).toNat) (k := 1) (by omega)).mpr htwo
    have hhigh := (Nat.log2_lt (n := ((size - 1) <<< 1).toNat) (k := 32) (by omega)).mpr
      (UInt32.toNat_lt _)
    rw [queueSize_of_large h31]
    exact ⟨_, hlow, by omega, hceil⟩
  · by_cases h0 : size.toNat = 0
    · have hsize : size = 0 := UInt32.toNat_inj.mp h0
      rw [hsize]
      exact ⟨1, Nat.le_refl _, by decide, rfl⟩
    · exact queueSize_isPowTwo (by omega) h31

/-- The size is the least power of two that is at least two and the number asked for. -/
theorem queueSize_isLeast {size : UInt32} (h1 : 1 ≤ size.toNat) (h31 : size.toNat ≤ 2 ^ 31) :
    IsLeast {p | (∃ k, p = 2 ^ k) ∧ max size.toNat 2 ≤ p} (queueSize size).toNat := by
  obtain ⟨k, -, -, hk⟩ := queueSize_isPowTwo h1 h31
  have htwo := (queueSize_isPowTwo h1 h31).two_le
  suffices hsize : size.toNat ≤ (queueSize size).toNat ∧
      ∀ j, max size.toNat 2 ≤ 2 ^ j → (queueSize size).toNat ≤ 2 ^ j by
    refine ⟨⟨⟨k, hk⟩, max_le hsize.1 htwo⟩, ?_⟩
    rintro p ⟨⟨j, rfl⟩, hle⟩
    exact hsize.2 j hle
  unfold queueSize
  split
  · rename_i hle
    have hone : size.toNat ≤ 1 := by simpa [UInt32.le_iff_toNat_le] using hle
    exact ⟨hone.trans (by decide), fun j hj => (le_max_right ..).trans hj⟩
  · rename_i hle
    have h2 : 1 < size.toNat := by simpa [UInt32.le_iff_toNat_le] using hle
    split
    · exact ⟨le_rfl, fun j hj => (le_max_left ..).trans hj⟩
    · rw [toNat_roundUppowerOfTwo h2 h31]
      refine ⟨?_, fun j hj => ?_⟩
      · have hlt : size.toNat - 1 < 2 ^ (Nat.log2 (size.toNat - 1) + 1) := Nat.lt_log2_self
        omega
      · have hlog : 2 ^ Nat.log2 (size.toNat - 1) ≤ size.toNat - 1 := Nat.log2_self_le (by omega)
        have hlt : 2 ^ Nat.log2 (size.toNat - 1) < 2 ^ j := by
          have := (le_max_left ..).trans hj
          omega
        exact Nat.pow_le_pow_right (by decide) ((Nat.pow_lt_pow_iff_right (by decide)).mp hlt)

/-- A queue whose size is a power of two indexes its slots modulo the size. -/
theorem LockFreeRingQueue.toNat_indexOfQueue {α : Type} (q : LockFreeRingQueue α)
    (h : IsPowTwo q.size) (index : UInt32) :
    (q.indexOfQueue index).toNat = index.toNat % q.size.toNat :=
  toNat_and_mask h index

/-- **The constructor rounds up.** For every requested size from `1` to
`2 ^ 31` the queue gets the least power of two that is at least two and
the request, its index function reduces modulo that size, and the size
divides the range of the 32-bit indices. -/
theorem create_rounds {α : Type} [Inhabited α] {size : UInt32} (h1 : 1 ≤ size.toNat)
    (h31 : size.toNat ≤ 2 ^ 31) :
    IsLeast {p | (∃ k, p = 2 ^ k) ∧ max size.toNat 2 ≤ p}
        (LockFreeRingQueue.create (α := α) size).size.toNat ∧
      (∀ index, ((LockFreeRingQueue.create (α := α) size).indexOfQueue index).toNat =
        index.toNat % (LockFreeRingQueue.create (α := α) size).size.toNat) ∧
      (LockFreeRingQueue.create (α := α) size).size.toNat ∣ 2 ^ 32 := by
  have hpow : IsPowTwo (LockFreeRingQueue.create (α := α) size).size := queueSize_isPowTwo h1 h31
  refine ⟨queueSize_isLeast h1 h31, fun index => ?_, hpow.dvd⟩
  exact LockFreeRingQueue.toNat_indexOfQueue _ hpow index

/-- A request for five slots: the ring has eight, and index `13` is slot `5`. -/
theorem create_rounds_five :
    IsLeast {p | (∃ k, p = 2 ^ k) ∧ max 5 2 ≤ p} 8 ∧
      ((LockFreeRingQueue.create (α := Nat) 5).indexOfQueue 13).toNat = 13 % 8 ∧ 8 ∣ 2 ^ 32 := by
  have hfive : 1 ≤ (5 : UInt32).toNat ∧ (5 : UInt32).toNat ≤ 2 ^ 31 := by decide
  obtain ⟨hleast, hindex, hdvd⟩ := create_rounds (α := Nat) hfive.1 hfive.2
  exact ⟨hleast, hindex 13, hdvd⟩

end TinyTcp.Ring
