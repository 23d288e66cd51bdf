/-
TinyTcp.Lib.OrderedSet — the operations of an ordered set on the sequence
of its elements.

The order is a comparison that the program supplies; positions stand for
iterators, and the length of the sequence for the end. `insert`, `find`
and `lowerBound` look from the front, which is what any search in an
ordered container comes to as long as the sequence is `Sorted`: strictly
increasing in a key that the comparison compares. The lemmas say what each
operation does to a sorted sequence.
-/
import Mathlib.Order.Lattice
import Mathlib.Data.List.Perm.Basic
import Mathlib.Data.List.Pairwise
import Mathlib.Data.List.Nodup

namespace TinyTcp.Lib

variable {α κ : Type}

namespace OrderedSet

/-! ## The operations -/

/-- The position of the first element that is not below the sought place. -/
def lowerBound (below : α → Bool) (l : List α) : Nat := (l.takeWhile below).length

/-- The position of an element equivalent to `v`. -/
def find (less : α → α → Bool) (l : List α) (v : α) : Option Nat :=
  match l[lowerBound (less · v) l]? with
  | some a => if less v a then none else some (lowerBound (less · v) l)
  | none => none

/-- The position of `v`, or of an equivalent element already there, and the
sequence after the insertion. -/
def insert (less : α → α → Bool) (l : List α) (v : α) : Nat × List α :=
  match find less l v with
  | some i => (i, l)
  | none =>
      let i := lowerBound (less · v) l
      (i, l.take i ++ v :: l.drop i)

/-- What is in front of the place is below it. -/
theorem of_mem_take_lowerBound {below : α → Bool} {l : List α} {a : α}
    (ha : a ∈ l.take (lowerBound below l)) : below a = true := by
  induction l with
  | nil => cases ha
  | cons b l ih =>
    rw [lowerBound, List.takeWhile_cons] at ha
    cases hb : below b with
    | true =>
      rw [hb, if_pos rfl, List.length_cons, List.take_succ_cons] at ha
      rcases List.mem_cons.mp ha with rfl | ha'
      · exact hb
      · exact ih ha'
    | false =>
      rw [hb, if_neg Bool.false_ne_true] at ha
      cases ha

/-- The element at the place is not below it. -/
theorem lowerBound_stops {below : α → Bool} {l : List α} {a : α} {rest : List α}
    (h : l.drop (lowerBound below l) = a :: rest) : below a = false := by
  induction l with
  | nil => cases h
  | cons b l ih =>
    rw [lowerBound, List.takeWhile_cons] at h
    cases hb : below b with
    | true =>
      rw [hb, if_pos rfl, List.length_cons, List.drop_succ_cons] at h
      exact ih h
    | false =>
      rw [hb, if_neg Bool.false_ne_true, List.length_nil, List.drop_zero] at h
      cases h
      exact hb

/-- A front part whose elements have a property that the rest has not. -/
theorem take_eq_filter {p : α → Bool} {n : Nat} {l : List α} (hfront : ∀ a ∈ l.take n, p a = true)
    (hrest : ∀ a ∈ l.drop n, p a = false) :
    l.take n = l.filter p ∧ l.drop n = l.filter (fun a => !p a) := by
  have hsplit : l = l.take n ++ l.drop n := (List.take_append_drop n l).symm
  constructor
  · conv_rhs => rw [hsplit, List.filter_append]
    rw [List.filter_eq_self.mpr hfront, List.filter_eq_nil_iff.mpr, List.append_nil]
    intro a ha
    rw [hrest a ha]
    exact Bool.false_ne_true
  · conv_rhs => rw [hsplit, List.filter_append]
    rw [List.filter_eq_nil_iff.mpr, List.nil_append, List.filter_eq_self.mpr]
    · intro a ha
      rw [hrest a ha]
      rfl
    · intro a ha
      rw [hfront a ha]
      exact Bool.false_ne_true

/-! ## Sorted sequences -/

variable [LinearOrder κ]

/-- Strictly increasing in the key. -/
def Sorted (key : α → κ) (l : List α) : Prop := l.Pairwise fun a b => key a < key b

variable {key : α → κ} {l : List α}

/-- Different elements have different keys. -/
theorem Sorted.key_inj (h : Sorted key l) {a b : α} (ha : a ∈ l) (hb : b ∈ l)
    (heq : key a = key b) : a = b := by
  induction l with
  | nil => cases ha
  | cons c l ih =>
    obtain ⟨hc, hl⟩ := List.pairwise_cons.mp h
    rcases List.mem_cons.mp ha with rfl | ha' <;> rcases List.mem_cons.mp hb with rfl | hb'
    · rfl
    · exact absurd heq (ne_of_lt (hc b hb'))
    · exact absurd heq.symm (ne_of_lt (hc a ha'))
    · exact ih hl ha' hb'

/-- The order only depends on the keys of the elements. -/
theorem Sorted.congr {key' : α → κ} (h : Sorted key l) (heq : ∀ a ∈ l, key' a = key a) :
    Sorted key' l := by
  refine List.Pairwise.imp_of_mem ?_ h
  intro a b ha hb hlt
  rw [heq a ha, heq b hb]
  exact hlt

/-- The least key comes first. -/
theorem Sorted.head_le {a : α} {rest : List α} (h : Sorted key (a :: rest)) {b : α}
    (hb : b ∈ a :: rest) : key a ≤ key b := by
  rcases List.mem_cons.mp hb with rfl | hb'
  · exact le_refl _
  · exact le_of_lt ((List.pairwise_cons.mp h).1 b hb')

/-- What is below a place is a front part of the sequence. -/
theorem Sorted.split (h : Sorted key l) {below : α → Bool}
    (hmono : ∀ a ∈ l, ∀ b ∈ l, key a < key b → below b = true → below a = true) :
    l.take (lowerBound below l) = l.filter below ∧
      l.drop (lowerBound below l) = l.filter (fun a => !below a) := by
  induction l with
  | nil => exact ⟨rfl, rfl⟩
  | cons a l ih =>
    obtain ⟨ha, hl⟩ := List.pairwise_cons.mp h
    cases hb : below a with
    | true =>
      have hrest := ih hl fun c hc d hd => hmono c (List.mem_cons_of_mem a hc) d
        (List.mem_cons_of_mem a hd)
      have hbound : lowerBound below (a :: l) = lowerBound below l + 1 := by
        simp [lowerBound, hb]
      rw [hbound, List.take_succ_cons, List.drop_succ_cons, hrest.1, hrest.2]
      simp [hb]
    | false =>
      have hnone : ∀ b ∈ l, below b = false := by
        intro b hbl
        by_contra htrue
        have := hmono a List.mem_cons_self b (List.mem_cons_of_mem a hbl) (ha b hbl)
          (by simpa using htrue)
        rw [hb] at this
        cases this
      have hbound : lowerBound below (a :: l) = 0 := by simp [lowerBound, hb]
      rw [hbound, List.take_zero, List.drop_zero]
      constructor
      · rw [List.filter_eq_nil_iff.mpr]
        intro b hbl
        rcases List.mem_cons.mp hbl with rfl | hbl'
        · simp [hb]
        · simp [hnone b hbl']
      · rw [List.filter_eq_self.mpr]
        intro b hbl
        rcases List.mem_cons.mp hbl with rfl | hbl'
        · simp [hb]
        · simp [hnone b hbl']

/-! ## What the operations do -/

/-- The comparison compares `v` with the elements by their keys. -/
def Compares (less : α → α → Bool) (key : α → κ) (l : List α) (v : α) : Prop :=
  ∀ a ∈ l, (less a v = true ↔ key a < key v) ∧ (less v a = true ↔ key v < key a)

variable {less : α → α → Bool} {v : α}

theorem Sorted.split_below (h : Sorted key l) (hc : Compares less key l v) :
    l.take (lowerBound (less · v) l) = l.filter (less · v) ∧
      l.drop (lowerBound (less · v) l) = l.filter (fun a => !less a v) := by
  refine h.split fun a ha b hb hab hlt => ?_
  exact ((hc a ha).1).mpr (lt_trans hab (((hc b hb).1).mp hlt))

/-- An element that is there is found, and erasing at the place found
takes it out and nothing else. -/
theorem Sorted.find_mem (h : Sorted key l) (hc : Compares less key l v) (hv : v ∈ l) :
    ∃ i, find less l v = some i ∧ l[i]? = some v ∧ Sorted key (l.eraseIdx i) ∧
      l.Perm (v :: l.eraseIdx i) := by
  obtain ⟨htake, hdrop⟩ := h.split_below hc
  have hirrefl : less v v = false := by
    by_contra hlt
    exact lt_irrefl (key v) (((hc v hv).1).mp (by simpa using hlt))
  have hmem : v ∈ l.drop (lowerBound (less · v) l) := by
    rw [hdrop, List.mem_filter]
    exact ⟨hv, by simp [hirrefl]⟩
  cases hrest : l.drop (lowerBound (less · v) l) with
  | nil =>
    rw [hrest] at hmem
    cases hmem
  | cons a rest =>
    have hget : l[lowerBound (less · v) l]? = some a := by
      rw [← List.head?_drop, hrest]
      rfl
    have hal : a ∈ l := List.mem_of_getElem? hget
    -- the first element that is not below `v` is `v` itself
    have hnot : less a v = false := by
      have : a ∈ l.filter (fun a => !less a v) := by
        rw [← hdrop, hrest]
        exact List.mem_cons_self
      simpa using (List.mem_filter.mp this).2
    have hle : key a ≤ key v := by
      have hsuffix : Sorted key (a :: rest) := hrest ▸ h.sublist (List.drop_sublist _ _)
      exact hsuffix.head_le (hrest ▸ hmem)
    have heq : a = v := by
      refine h.key_inj hal hv (le_antisymm hle (not_lt.mp fun hlt => ?_))
      rw [((hc a hal).1).mpr hlt] at hnot
      cases hnot
    subst heq
    refine ⟨lowerBound (less · a) l, ?_, hget, h.sublist (List.eraseIdx_sublist _ _), ?_⟩
    · rw [find, hget]
      simp [hirrefl]
    · have hsplit : l = l.take (lowerBound (less · a) l) ++ a :: rest := by
        rw [← hrest, List.take_append_drop]
      have herase : l.eraseIdx (lowerBound (less · a) l) =
          l.take (lowerBound (less · a) l) ++ rest := by
        rw [List.eraseIdx_eq_take_drop_succ, ← List.drop_drop, hrest]
        rfl
      rw [herase]
      conv_lhs => rw [hsplit]
      exact List.perm_middle

/-- A new element goes to the place of its key, in front of everything
exactly when its key is the least. -/
theorem Sorted.insert_new (h : Sorted key l) (hc : Compares less key l v)
    (hnew : ∀ a ∈ l, key a ≠ key v) :
    Sorted key (insert less l v).2 ∧ (insert less l v).2.Perm (v :: l) ∧
      ((insert less l v).1 = 0 ↔ ∀ a ∈ l, key v < key a) := by
  obtain ⟨htake, hdrop⟩ := h.split_below hc
  have hnone : find less l v = none := by
    rw [find]
    split
    · rename_i a hget
      have hal : a ∈ l := List.mem_of_getElem? hget
      have hnot : less a v = false := by
        have : a ∈ l.filter (fun a => !less a v) := by
          rw [← hdrop, List.mem_iff_getElem?]
          exact ⟨0, by rw [List.getElem?_drop]; exact hget⟩
        simpa using (List.mem_filter.mp this).2
      have hlt : key v < key a := by
        rcases lt_trichotomy (key a) (key v) with hlt | heq | hgt
        · rw [((hc a hal).1).mpr hlt] at hnot
          cases hnot
        · exact absurd heq (hnew a hal)
        · exact hgt
      rw [if_pos (((hc a hal).2).mpr hlt)]
    · rfl
  have hbound : lowerBound (less · v) l ≤ l.length := by
    rw [lowerBound]
    exact (List.takeWhile_sublist _).length_le
  have hinsert : insert less l v = (lowerBound (less · v) l,
      l.filter (less · v) ++ v :: l.filter (fun a => !less a v)) := by
    rw [insert, hnone]
    rw [← htake, ← hdrop]
  have hperm : (l.filter (less · v) ++ v :: l.filter (fun a => !less a v)).Perm (v :: l) := by
    refine List.perm_middle.trans (List.Perm.cons v ?_)
    exact List.filter_append_perm (less · v) l
  rw [hinsert]
  refine ⟨?_, hperm, ?_⟩
  · refine List.pairwise_append.mpr ⟨h.sublist List.filter_sublist, ?_, ?_⟩
    · refine List.pairwise_cons.mpr ⟨fun a ha => ?_, h.sublist List.filter_sublist⟩
      obtain ⟨hal, hnot⟩ := List.mem_filter.mp ha
      rcases lt_trichotomy (key a) (key v) with hlt | heq | hgt
      · rw [((hc a hal).1).mpr hlt] at hnot
        cases hnot
      · exact absurd heq (hnew a hal)
      · exact hgt
    · intro a ha b hb
      obtain ⟨hal, hlt⟩ := List.mem_filter.mp ha
      have hav : key a < key v := ((hc a hal).1).mp hlt
      rcases List.mem_cons.mp hb with rfl | hb'
      · exact hav
      · obtain ⟨hbl, hnot⟩ := List.mem_filter.mp hb'
        refine lt_of_lt_of_le hav (not_lt.mp fun hbv => ?_)
        rw [((hc b hbl).1).mpr hbv] at hnot
        cases hnot
  · show lowerBound (less · v) l = 0 ↔ _
    have hlen : lowerBound (less · v) l = (l.filter (less · v)).length := by
      rw [← htake, List.length_take, Nat.min_eq_left hbound]
    rw [hlen, List.length_eq_zero_iff, List.filter_eq_nil_iff]
    constructor
    · intro hall a ha
      rcases lt_trichotomy (key a) (key v) with hlt | heq | hgt
      · exact absurd (((hc a ha).1).mpr hlt) (hall a ha)
      · exact absurd heq (hnew a ha)
      · exact hgt
    · intro hall a ha hlt
      exact lt_asymm (hall a ha) (((hc a ha).1).mp hlt)

end OrderedSet

end TinyTcp.Lib
