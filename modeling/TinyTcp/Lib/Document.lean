/-
TinyTcp.Lib.Document — documents: trees of scalars, sequences and maps,
and the walk along the keys of the maps.

A key of a map is a document itself; `key` says what a reader takes it
for. `walk` lists the documents that keys lead to, each one in front of
those below it and with the keys on the way. It has exactly those that
`Leads` relates (`mem_walk_iff`).

`lastFor` is what a list of entries says of a key when later entries
replace earlier ones and the ones that do not convert are passed over.
-/
import Mathlib.Data.List.Basic

namespace TinyTcp.Lib

/-! ## Documents -/

inductive Doc (α : Type) where
  | null
  | scalar (s : α)
  | seq (items : List (Doc α))
  | map (entries : List (Doc α × Doc α))

namespace Doc

variable {α β : Type} (key : Doc α → β)

mutual

/-- The documents below this one that keys lead to, in the order of the text. -/
def walk : Doc α → List (List β × Doc α)
  | .null => [([], .null)]
  | .scalar s => [([], .scalar s)]
  | .seq items => [([], .seq items)]
  | .map entries => ([], .map entries) :: walkEntries entries

/-- The walk through the entries of a map. -/
def walkEntries : List (Doc α × Doc α) → List (List β × Doc α)
  | [] => []
  | (k, v) :: rest => (walk v).map (fun p => (key k :: p.1, p.2)) ++ walkEntries rest

end

/-- The keys lead from one document to another. -/
inductive Leads : Doc α → List β → Doc α → Prop
  | here (d : Doc α) : Leads d [] d
  | down {entries : List (Doc α × Doc α)} {k v d : Doc α} {ks : List β} (hmem : (k, v) ∈ entries)
      (hleads : Leads v ks d) : Leads (.map entries) (key k :: ks) d

mutual

theorem leads_of_mem_walk : ∀ {d d' : Doc α} {ks : List β}, (ks, d') ∈ walk key d → Leads key d ks d'
  | .null, d', ks, h => by
    rw [walk, List.mem_singleton] at h
    cases h
    exact .here _
  | .scalar s, d', ks, h => by
    rw [walk, List.mem_singleton] at h
    cases h
    exact .here _
  | .seq items, d', ks, h => by
    rw [walk, List.mem_singleton] at h
    cases h
    exact .here _
  | .map entries, d', ks, h => by
    rw [walk] at h
    rcases List.mem_cons.mp h with h | h
    · cases h
      exact .here _
    · obtain ⟨k, v, ks, hmem, hleads, rfl⟩ := leads_of_mem_walkEntries h
      exact .down hmem hleads

theorem leads_of_mem_walkEntries : ∀ {entries : List (Doc α × Doc α)} {d' : Doc α} {ks : List β},
    (ks, d') ∈ walkEntries key entries →
      ∃ k v ks', (k, v) ∈ entries ∧ Leads key v ks' d' ∧ ks = key k :: ks'
  | [], d', ks, h => by
    rw [walkEntries] at h
    cases h
  | (k, v) :: rest, d', ks, h => by
    rw [walkEntries] at h
    rcases List.mem_append.mp h with h | h
    · obtain ⟨⟨ks', d⟩, hmem, heq⟩ := List.mem_map.mp h
      cases heq
      exact ⟨k, v, ks', List.mem_cons_self, leads_of_mem_walk hmem, rfl⟩
    · obtain ⟨k', v', ks', hmem, hleads, heq⟩ := leads_of_mem_walkEntries h
      exact ⟨k', v', ks', List.mem_cons_of_mem _ hmem, hleads, heq⟩

end

theorem nil_mem_walk (d : Doc α) : ([], d) ∈ walk key d := by
  cases d with
  | null => exact List.mem_cons_self
  | scalar s => exact List.mem_cons_self
  | seq items => exact List.mem_cons_self
  | map entries =>
    rw [walk]
    exact List.mem_cons_self

theorem mem_walkEntries {entries : List (Doc α × Doc α)} {k v d : Doc α} {ks : List β}
    (hmem : (k, v) ∈ entries) (hwalk : (ks, d) ∈ walk key v) :
    (key k :: ks, d) ∈ walkEntries key entries := by
  induction entries with
  | nil => cases hmem
  | cons e rest ih =>
    obtain ⟨k', v'⟩ := e
    rw [walkEntries]
    rcases List.mem_cons.mp hmem with heq | hmem
    · cases heq
      exact List.mem_append_left _ (List.mem_map_of_mem hwalk)
    · exact List.mem_append_right _ (ih hmem)

/-- The walk comes to what keys lead to, and to nothing else. -/
theorem mem_walk_iff {d d' : Doc α} {ks : List β} : (ks, d') ∈ walk key d ↔ Leads key d ks d' := by
  refine ⟨leads_of_mem_walk key, fun h => ?_⟩
  induction h with
  | here d => exact nil_mem_walk key d
  | down hmem _ ih =>
    rw [walk]
    exact List.mem_cons_of_mem _ (mem_walkEntries key hmem ih)

end Doc

/-! ## The last entry for a key -/

variable {κ β γ : Type} [DecidableEq κ]

/-- What the last entry for `k` that converts says, or what was there before. -/
def lastFor (convert : β → Option γ) (k : κ) (entries : List (κ × β)) (old : γ) : γ :=
  (((entries.filter (·.1 = k)).filterMap (convert ·.2)).getLast?).getD old

@[simp] theorem lastFor_nil (convert : β → Option γ) (k : κ) (old : γ) :
    lastFor convert k [] old = old := rfl

theorem lastFor_cons_of_ne (convert : β → Option γ) {k : κ} {e : κ × β} (h : e.1 ≠ k)
    (entries : List (κ × β)) (old : γ) :
    lastFor convert k (e :: entries) old = lastFor convert k entries old := by
  rw [lastFor, List.filter_cons_of_neg (by simpa using h), lastFor]

theorem lastFor_cons_self (convert : β → Option γ) (k : κ) (b : β) (entries : List (κ × β)) (old : γ) :
    lastFor convert k ((k, b) :: entries) old = lastFor convert k entries ((convert b).getD old) := by
  rw [lastFor, List.filter_cons_of_pos (by simp), lastFor]
  cases hb : convert b with
  | none => simp [hb]
  | some c => simp [hb, List.getLast?_cons]

end TinyTcp.Lib
