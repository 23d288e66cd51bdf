/-
TinyTcp.Net.FindNetif — `INetIF::set_name` of `src/net/netif.cc` and
`INetWork::find_netif_by_name` of `src/net/network.cc`.

The loop returns the first interface for which `strcmp` is not zero, which
is the first one that has another name. `isFirst_iff` says what is left of
the intended meaning: the answer is the first interface of the given name,
or the end, only for an empty list, and for a `std::string` with a zero
inside that reads, up to this zero, as the one name that all interfaces
share.
-/
import TinyTcp.Lib.CString

namespace TinyTcp.Net

open TinyTcp.Lib

/-- `NETIF_NAME_SIZE` -/
def netifNameSize : Nat := 10

/-- An interface, as far as its name goes: the bytes of the object from
`m_name` on, which are the `NETIF_NAME_SIZE` characters of the array and
the members behind it. -/
structure NamedNetif where
  name : List UInt8
  terminated : 0 ∈ name

namespace NamedNetif

def getName (f : NamedNetif) : List UInt8 := f.name

/-- `set_name` writes no terminator; there has to be one behind the characters. -/
def setName (f : NamedNetif) (name : List UInt8)
    (h : 0 ∈ f.name.drop (cString name).length) : NamedNetif where
  name := copyChars f.name name
  terminated := List.mem_append_right _ h

/-- The zero-initialised member, in front of the other members of the object. -/
def unnamed (behind : List UInt8) : NamedNetif where
  name := List.replicate netifNameSize 0 ++ behind
  terminated := List.mem_append_left _ (List.mem_replicate.mpr ⟨by decide, rfl⟩)

theorem zero_mem_drop_unnamed {k : Nat} (hk : k < netifNameSize) (behind : List UInt8) :
    ∃ rest, (unnamed behind).name.drop k = 0 :: rest := by
  refine ⟨List.replicate (netifNameSize - k - 1) 0 ++ behind, ?_⟩
  have hrep : List.replicate (netifNameSize - k) (0 : UInt8) =
      0 :: List.replicate (netifNameSize - k - 1) 0 := by
    rw [← List.replicate_succ]
    congr 1
    omega
  rw [unnamed, List.drop_append_of_le_length (by rw [List.length_replicate]; omega),
    List.drop_replicate, hrep, List.cons_append]

/-- A new interface has the name its constructor sets, if the array has
room for the terminator. -/
theorem getName_setName_unnamed {name : List UInt8} (behind : List UInt8)
    (hlen : (cString name).length < netifNameSize)
    (h : 0 ∈ (unnamed behind).name.drop (cString name).length) :
    cString ((unnamed behind).setName name h).getName = cString name := by
  obtain ⟨rest, hrest⟩ := zero_mem_drop_unnamed hlen behind
  rw [getName, setName, cString_copyChars, hrest, cString_cons, if_pos rfl, List.append_nil]

end NamedNetif

/-- The argument that `name.c_str()` is: the characters of the
`std::string` and a zero. -/
def cStr (name : List UInt8) : List UInt8 := name ++ [0]

theorem zero_mem_cStr (name : List UInt8) : 0 ∈ cStr name := List.mem_concat_self

theorem cString_cStr (name : List UInt8) : cString (cStr name) = cString name := by
  induction name with
  | nil => rfl
  | cons a name ih =>
    rw [show cStr (a :: name) = a :: cStr name from rfl, cString_cons, cString_cons, ih]

/-- The place of the interface that the loop returns; the length of the
list is `end()`. -/
def findNetifByName (netifList : List NamedNetif) (name : List UInt8) : Nat :=
  netifList.findIdx fun it => strcmp it.getName (cStr name) != 0

/-- The place of the first interface with this name, or the end if there is none. -/
structure IsFirst (netifList : List NamedNetif) (name : List UInt8) (it : Nat) : Prop where
  le : it ≤ netifList.length
  before : ∀ j < it, ∀ f, netifList[j]? = some f → cString f.getName ≠ name
  named : ∀ f, netifList[it]? = some f → cString f.getName = name

variable {netifList : List NamedNetif} {name : List UInt8}

/-- The test of the loop. -/
theorem strcmp_ne_zero_iff (f : NamedNetif) (name : List UInt8) :
    (strcmp f.getName (cStr name) != 0) = true ↔ cString f.getName ≠ cString name := by
  rw [bne_iff_ne, ← cString_cStr name]
  exact not_congr (strcmp_eq_zero_iff f.terminated (zero_mem_cStr name))

/-- The loop passes over the interfaces of this name. -/
theorem cString_of_lt_find {j : Nat} (hj : j < findNetifByName netifList name) {f : NamedNetif}
    (hf : netifList[j]? = some f) : cString f.getName = cString name := by
  obtain ⟨hlt, rfl⟩ := List.getElem?_eq_some_iff.mp hf
  have hnot := List.not_of_lt_findIdx hj
  by_contra hne
  exact absurd ((strcmp_ne_zero_iff _ _).mpr hne) (by simpa using hnot)

/-- It stops at one of another name. -/
theorem cString_ne_of_find {f : NamedNetif}
    (hf : netifList[findNetifByName netifList name]? = some f) :
    cString f.getName ≠ cString name := by
  refine (strcmp_ne_zero_iff f name).mp ?_
  unfold findNetifByName at hf
  simpa using List.findIdx_of_getElem?_eq_some hf

/-- The interface the loop stops at cannot have the name: a right answer is the end. -/
theorem IsFirst.find_eq_length (h : IsFirst netifList name (findNetifByName netifList name)) :
    findNetifByName netifList name = netifList.length := by
  by_contra hne
  have hlt : findNetifByName netifList name < netifList.length := Nat.lt_of_le_of_ne h.le hne
  obtain ⟨f, hf⟩ : ∃ f, netifList[findNetifByName netifList name]? = some f :=
    ⟨_, List.getElem?_eq_getElem hlt⟩
  have hname := h.named f hf
  have hself : cString name = name := by
    rw [← hname]
    exact cString_eq_self_iff.mpr (zero_not_mem_cString _)
  exact cString_ne_of_find hf (hname.trans hself.symm)

/-- **Polarity of the search.** The loop answers with the first interface
of the given name, or with the end if there is none, exactly if the list
is empty, or the name has a zero inside and every interface is called what
stands in front of that zero. -/
theorem isFirst_iff (netifList : List NamedNetif) (name : List UInt8) :
    IsFirst netifList name (findNetifByName netifList name) ↔
      netifList = [] ∨ (0 ∈ name ∧ ∀ f ∈ netifList, cString f.getName = cString name) := by
  constructor
  · intro h
    have hend := h.find_eq_length
    have hall : ∀ f ∈ netifList, cString f.getName = cString name := by
      intro f hf
      obtain ⟨j, hj⟩ := List.mem_iff_getElem?.mp hf
      have hlt := (List.getElem?_eq_some_iff.mp hj).1
      exact cString_of_lt_find (hend ▸ hlt) hj
    cases hlist : netifList with
    | nil => exact .inl rfl
    | cons f rest =>
      rw [hlist] at h hend hall
      refine .inr ⟨?_, hall⟩
      by_contra hzero
      -- the first interface has the name, and the loop has passed it
      have hfirst := hall f List.mem_cons_self
      rw [cString_eq_self_iff.mpr hzero] at hfirst
      exact h.before 0 (by rw [hend]; exact Nat.succ_pos _) f rfl hfirst
  · rintro (rfl | ⟨hzero, hall⟩)
    · exact ⟨Nat.le_refl _, fun j hj => absurd hj (Nat.not_lt_zero j), nofun⟩
    · have hend : findNetifByName netifList name = netifList.length := by
        refine List.findIdx_eq_length.mpr fun f hf => ?_
        rw [Bool.eq_false_iff, ne_eq, strcmp_ne_zero_iff]
        exact fun hne => hne (hall f hf)
      rw [hend]
      refine ⟨Nat.le_refl _, fun j hj f hf => ?_, fun f hf => ?_⟩
      · rw [hall f (List.mem_of_getElem? hf)]
        intro heq
        exact cString_eq_self_iff.mp heq hzero
      · rw [List.getElem?_eq_none (Nat.le_refl _)] at hf
        cases hf

/-- The characters of `eth0`. -/
def eth0Name : List UInt8 := [101, 116, 104, 48]

/-- The open interface `eth0`; the next member starts with a zero. -/
def eth0 : NamedNetif := (NamedNetif.unnamed [0]).setName eth0Name (by decide)

/-- The search for `eth0` ends behind the only interface, which is `eth0`. -/
theorem not_isFirst_eth0 :
    findNetifByName [eth0] eth0Name = 1 ∧
      ¬ IsFirst [eth0] eth0Name (findNetifByName [eth0] eth0Name) := by
  have hname : cString eth0.getName = eth0Name := by decide
  refine ⟨by decide, fun h => ?_⟩
  exact h.before 0 (by decide) eth0 rfl hname

end TinyTcp.Net
