/-
TinyTcp.Lib.CString — C strings in byte memory.

A pointer to characters is the list of the bytes that follow it, which
must have a terminating zero; the string is what stands before the first
one.
-/
import Mathlib.Data.List.Basic

namespace TinyTcp.Lib

/-- The characters in front of the first zero. -/
def cString (s : List UInt8) : List UInt8 := s.takeWhile (· != 0)

@[simp] theorem cString_nil : cString [] = [] := rfl

theorem cString_cons (a : UInt8) (s : List UInt8) :
    cString (a :: s) = if a = 0 then [] else a :: cString s := by
  unfold cString
  by_cases ha : a = 0
  · simp [ha]
  · simp [ha]

theorem zero_not_mem_cString (s : List UInt8) : 0 ∉ cString s := by
  induction s with
  | nil => exact List.not_mem_nil
  | cons a s ih =>
    rw [cString_cons]
    split
    · exact List.not_mem_nil
    · rename_i ha
      intro h
      rcases List.mem_cons.mp h with h | h
      · exact ha h.symm
      · exact ih h

/-- Characters without a zero are their own string, whatever follows the terminator. -/
theorem cString_append {s : List UInt8} (hs : 0 ∉ s) (rest : List UInt8) :
    cString (s ++ rest) = s ++ cString rest := by
  refine List.takeWhile_append_of_pos ?_
  intro a ha
  rw [bne_iff_ne]
  rintro rfl
  exact hs ha

theorem cString_eq_self_iff {s : List UInt8} : cString s = s ↔ 0 ∉ s := by
  constructor
  · intro h
    rw [← h]
    exact zero_not_mem_cString s
  · intro hs
    simpa using cString_append hs []

/-- `strcmp`: the first difference decides, as unsigned characters. Both
arguments are terminated, so no list is read to its end. -/
def strcmp : List UInt8 → List UInt8 → Int
  | a :: s, b :: t => if a ≠ b then a.toNat - b.toNat else if a = 0 then 0 else strcmp s t
  | _, _ => 0

theorem strcmp_eq_zero_iff : ∀ {s t : List UInt8}, 0 ∈ s → 0 ∈ t →
    (strcmp s t = 0 ↔ cString s = cString t)
  | [], _, hs, _ => absurd hs List.not_mem_nil
  | _ :: _, [], _, ht => absurd ht List.not_mem_nil
  | a :: s, b :: t, hs, ht => by
    rw [cString_cons, cString_cons]
    by_cases hab : a = b
    · subst hab
      by_cases ha : a = 0
      · simp [strcmp, ha]
      · have hs' : 0 ∈ s := (List.mem_cons.mp hs).resolve_left (Ne.symm ha)
        have ht' : 0 ∈ t := (List.mem_cons.mp ht).resolve_left (Ne.symm ha)
        simp only [strcmp, ne_eq, not_true_eq_false, if_false, if_neg ha, List.cons.injEq, true_and]
        exact strcmp_eq_zero_iff hs' ht'
    · have hne : (a.toNat : Int) - b.toNat ≠ 0 := by
        intro h
        exact hab (UInt8.toNat_inj.mp (by omega))
      refine iff_of_false (by simpa [strcmp, hab] using hne) ?_
      intro h
      split at h
      · rename_i ha
        split at h
        · rename_i hb
          exact hab (ha.trans hb.symm)
        · cases h
      · split at h
        · cases h
        · exact hab (List.cons.inj h).1

/-- `memcpy(dest, src, strlen(src))`: the characters without the
terminator, over the first bytes of `dest`. -/
def copyChars (dest src : List UInt8) : List UInt8 := cString src ++ dest.drop (cString src).length

/-- What a reader finds then: the characters, and what is left of the old
string behind them. -/
theorem cString_copyChars (dest src : List UInt8) :
    cString (copyChars dest src) = cString src ++ cString (dest.drop (cString src).length) :=
  cString_append (zero_not_mem_cString src) _

end TinyTcp.Lib
