/-
TinyTcp.Config.Containers — the conversions between containers and YAML text:
`LexicalCast` for `std::vector`, `std::list`, `std::set` and `std::map` of
`src/config.h`, over any conversion of their elements.

A container is printed as a sequence or a map of the documents that the
texts of its elements are loaded as, and it is read by printing each of
these documents again and converting the text. So a scalar in a container
makes a round through a document that it does not make on its own: a string
such as `a: b` is a map there, and an empty one is a null.

`Shape` are the types that the containers make of a scalar type.
`printed_value` says what a printed value is read as, which is the value
with each scalar replaced by what its round makes of it. A variable that
reads its own text keeps its value if each scalar is itself after its
round; where no set is involved it keeps it in no other case.
-/
import TinyTcp.Log.DefineCast
import TinyTcp.Lib.SortedList
import Mathlib.Data.List.Lex
import Mathlib.Data.Prod.Lex

namespace TinyTcp.Config

open TinyTcp.Lib TinyTcp.Log

/-- The order of `std::string`, which compares unsigned characters. -/
local instance charOrder : LinearOrder UInt8 where
  le_refl := UInt8.le_refl
  le_trans _ _ _ := UInt8.le_trans
  le_antisymm _ _ := UInt8.le_antisymm
  le_total := UInt8.le_total
  lt_iff_le_not_ge _ _ := by simp [UInt8.lt_iff_toNat_lt, UInt8.le_iff_toNat_le]; omega
  toDecidableLE := inferInstance

/-- `std::set<T>` -/
abbrev StdSet (α : Type) [LinearOrder α] := SortedList (id : α → α)

/-- `std::map<std::string, T>` -/
abbrev StdMap (α : Type) := SortedList (Prod.fst : Str × α → Str)

/-- `LexicalCast<std::string, T>` and `LexicalCast<T, std::string>`; `none` is an exception. -/
structure LexicalCast (α : Type) where
  fromString : Str → Option α
  toString : α → Option Str

variable {α : Type} (y : Yaml) (c : LexicalCast α)

/-- The loop over `node[i]`. -/
def castItems (node : Node) : Option (List α) :=
  (List.range (Yaml.size node)).mapM fun i => c.fromString (y.emit (y.index i node))

/-- The loop from `node.begin()` to `node.end()`. An element of a sequence has no key. -/
def castEntries : Node → Option (List (Str × α))
  | .map entries =>
      entries.mapM fun it => (c.fromString (y.emit (some it.2))).map (Prod.mk (scalarOf it.1))
  | .seq (_ :: _) => none
  | _ => some []

/-- A value as a node of its own. -/
def loaded (i : α) : Option Node := do y.load (← c.toString i)

def printItems (v : List α) : Option Str := do
  let items ← v.mapM (loaded y c)
  some (y.emit (some (seqNode items)))

/-- A null until something is assigned to a key of it. -/
def mapNode : List (Node × Node) → Node
  | [] => .null
  | entries => .map entries

/-- `std::vector<T>`, and `std::list<T>` -/
def vectorCast : LexicalCast (List α) where
  fromString v := do castItems y c (← y.load v)
  toString v := printItems y c v

def setCast [LinearOrder α] : LexicalCast (StdSet α) where
  fromString v := do (castItems y c (← y.load v)).map .ofList
  toString v := printItems y c v.items

def mapCast : LexicalCast (StdMap α) where
  fromString v := do (castEntries y c (← y.load v)).map .ofList
  toString v := do
    let entries ← v.items.mapM fun i => (loaded y c i.2).map (Prod.mk (.scalar i.1))
    some (y.emit (some (mapNode entries)))

/-! ## One container -/

variable {y c} {doc : α → Node}

theorem castItems_seqNode (l : List α) :
    castItems y c (seqNode (l.map doc)) = l.mapM fun x => c.fromString (y.emit (some (doc x))) := by
  cases l with
  | nil => rfl
  | cons x l =>
    have hloop := mapM_range (fun n => c.fromString (y.emit n)) ((x :: l).map doc)
    rw [List.mapM_map] at hloop
    exact hloop

theorem castEntries_mapNode (l : List (Str × α)) :
    castEntries y c (mapNode (l.map fun i => (.scalar i.1, doc i.2))) =
      l.mapM fun i => (c.fromString (y.emit (some (doc i.2)))).map (Prod.mk i.1) := by
  cases l with
  | nil => rfl
  | cons x l =>
    change ((x :: l).map fun i => ((.scalar i.1, doc i.2) : Node × Node)).mapM _ = _
    rw [List.mapM_map]
    rfl

theorem printItems_eq {l : List α} (h : ∀ x ∈ l, loaded y c x = some (doc x)) :
    printItems y c l = some (y.emit (some (seqNode (l.map doc)))) := by
  simp [printItems, mapM_eq_map h]

theorem mapCast_toString {m : StdMap α} (h : ∀ i ∈ m.items, loaded y c i.2 = some (doc i.2)) :
    (mapCast y c).toString m =
      some (y.emit (some (mapNode (m.items.map fun i => (.scalar i.1, doc i.2))))) := by
  have hloop : (m.items.mapM fun i => (loaded y c i.2).map (Prod.mk (Doc.scalar i.1 : Node))) =
      some (m.items.map fun i => (.scalar i.1, doc i.2)) := by
    refine mapM_eq_map fun i hi => ?_
    rw [h i hi]
    rfl
  simp [mapCast, hloop]

/-! ## Containers of containers -/

/-- What the containers make of a scalar type. -/
inductive Shape where
  | scalar
  | vector (s : Shape)
  | set (s : Shape)
  | map (s : Shape)
  deriving DecidableEq, Repr

namespace Shape

variable (T : Type) [LinearOrder T]

/-- The values of a shape with the order that `operator<` gives them. -/
def Ordered : Shape → (α : Type) × LinearOrder α
  | scalar => ⟨T, inferInstance⟩
  | vector s =>
      let _ := (Ordered s).2
      ⟨List (Ordered s).1, inferInstance⟩
  | set s =>
      let _ := (Ordered s).2
      ⟨StdSet (Ordered s).1, LinearOrder.lift' SortedList.items fun _ _ => SortedList.ext_items⟩
  | map s =>
      let _ := (Ordered s).2
      ⟨StdMap (Ordered s).1, LinearOrder.lift' (fun m => m.items.map toLex)
        fun _ _ h => SortedList.ext_items (List.map_injective_iff.mpr toLex.injective h)⟩

abbrev Val (s : Shape) : Type := (Ordered T s).1

instance valOrder (s : Shape) : LinearOrder (Val T s) := (Ordered T s).2

/-- A value that is a vector. -/
abbrev elements {T : Type} [LinearOrder T] {s : Shape} (v : Val T (vector s)) : List (Val T s) := v

variable {T}

/-- The conversions that the compiler chooses. -/
def cast (y : Yaml) (c : LexicalCast T) : (s : Shape) → LexicalCast (Val T s)
  | scalar => c
  | vector s => vectorCast y (cast y c s)
  | set s => setCast y (cast y c s)
  | map s => mapCast y (cast y c s)

/-- The scalars in a value. -/
def leaves : (s : Shape) → Val T s → List T
  | scalar, x => [x]
  | vector s, v => (elements v).flatMap (leaves s)
  | set s, v => v.items.flatMap (leaves s)
  | map s, v => v.items.flatMap fun i => leaves s i.2

/-- The document that a value is printed as, given those of its scalars. -/
def node (doc : T → Node) : (s : Shape) → Val T s → Node
  | scalar, x => doc x
  | vector s, v => seqNode ((elements v).map (node doc s))
  | set s, v => seqNode (v.items.map (node doc s))
  | map s, v => mapNode (v.items.map fun i => (.scalar i.1, node doc s i.2))

/-- The library loads each of the containers that are printed as itself. -/
def Returned (y : Yaml) (doc : T → Node) : (s : Shape) → Val T s → Prop
  | scalar, _ => True
  | vector s, v => y.Returns (node doc (vector s) v) ∧ ∀ x ∈ elements v, Returned y doc s x
  | set s, v => y.Returns (node doc (set s) v) ∧ ∀ x ∈ v.items, Returned y doc s x
  | map s, v => y.Returns (node doc (map s) v) ∧ ∀ i ∈ v.items, Returned y doc s i.2

/-- The value when `f` is done to each scalar and the containers are filled again. -/
def becomes (f : T → Option T) : (s : Shape) → Val T s → Option (Val T s)
  | scalar, x => f x
  | vector s, v => (elements v).mapM (becomes f s)
  | set s, v => (v.items.mapM (becomes f s)).map SortedList.ofList
  | map s, v =>
      (v.items.mapM fun i => (becomes f s i.2).map (Prod.mk i.1)).map SortedList.ofList

variable {y : Yaml} {c : LexicalCast T} {doc : T → Node}

/-- A container is printed as its document, and its text is loaded as that. -/
theorem cast_toString {s : Shape} {v : Val T s} (hloaded : ∀ x ∈ leaves s v, loaded y c x = some (doc x))
    (hreturned : Returned y doc s v) :
    (s ≠ scalar → (cast y c s).toString v = some (y.emit (some (node doc s v)))) ∧
      loaded y (cast y c s) v = some (node doc s v) := by
  have hload : ∀ {s : Shape} {v : Val T s}, y.Returns (node doc s v) →
      (cast y c s).toString v = some (y.emit (some (node doc s v))) →
        loaded y (cast y c s) v = some (node doc s v) := by
    intro s v hreturns htext
    rw [loaded, htext]
    exact hreturns
  induction s with
  | scalar => exact ⟨fun h => absurd rfl h, hloaded v (List.mem_singleton_self v)⟩
  | vector s ih =>
    obtain ⟨hreturns, hitems⟩ := hreturned
    have htext : (cast y c (vector s)).toString v = some (y.emit (some (node doc (vector s) v))) := by
      refine printItems_eq fun x hx => (ih (fun l hl => hloaded l ?_) (hitems x hx)).2
      exact List.mem_flatMap.mpr ⟨x, hx, hl⟩
    exact ⟨fun _ => htext, hload hreturns htext⟩
  | set s ih =>
    obtain ⟨hreturns, hitems⟩ := hreturned
    have htext : (cast y c (set s)).toString v = some (y.emit (some (node doc (set s) v))) := by
      refine printItems_eq fun x hx => (ih (fun l hl => hloaded l ?_) (hitems x hx)).2
      exact List.mem_flatMap.mpr ⟨x, hx, hl⟩
    exact ⟨fun _ => htext, hload hreturns htext⟩
  | map s ih =>
    obtain ⟨hreturns, hitems⟩ := hreturned
    have htext : (cast y c (map s)).toString v = some (y.emit (some (node doc (map s) v))) := by
      refine mapCast_toString fun i hi => (ih (fun l hl => hloaded l ?_) (hitems i hi)).2
      exact List.mem_flatMap.mpr ⟨i, hi, hl⟩
    exact ⟨fun _ => htext, hload hreturns htext⟩

/-- **What a printed value is read as.** -/
theorem cast_node {s : Shape} {v : Val T s} (hreturned : Returned y doc s v) :
    (cast y c s).fromString (y.emit (some (node doc s v))) =
      becomes (fun x => c.fromString (y.emit (some (doc x)))) s v := by
  induction s with
  | scalar => rfl
  | vector s ih =>
    obtain ⟨hreturns, hitems⟩ := hreturned
    have hread : (cast y c (vector s)).fromString (y.emit (some (node doc (vector s) v))) =
        castItems y (cast y c s) (seqNode ((elements v).map (node doc s))) := by
      change (y.load _).bind _ = _
      rw [hreturns]
      rfl
    rw [hread, castItems_seqNode]
    exact mapM_congr (l := elements v) fun x hx => ih (hitems x hx)
  | set s ih =>
    obtain ⟨hreturns, hitems⟩ := hreturned
    have hread : (cast y c (set s)).fromString (y.emit (some (node doc (set s) v))) =
        (castItems y (cast y c s) (seqNode (v.items.map (node doc s)))).map SortedList.ofList := by
      change (y.load _).bind _ = _
      rw [hreturns]
      rfl
    rw [hread, castItems_seqNode, mapM_congr fun x hx => ih (hitems x hx)]
    rfl
  | map s ih =>
    obtain ⟨hreturns, hitems⟩ := hreturned
    have hread : (cast y c (map s)).fromString (y.emit (some (node doc (map s) v))) =
        (castEntries y (cast y c s)
          (mapNode (v.items.map fun i => (.scalar i.1, node doc s i.2)))).map SortedList.ofList := by
      change (y.load _).bind _ = _
      rw [hreturns]
      rfl
    rw [hread, castEntries_mapNode, mapM_congr fun i hi => congrArg _ (ih (hitems i hi))]
    rfl

/-! ## Values that stay as they are -/

/-- There is no set in it. -/
def setFree : Shape → Bool
  | scalar => true
  | vector s => setFree s
  | set _ => false
  | map s => setFree s

theorem becomes_self {f : T → Option T} {s : Shape} {v : Val T s}
    (h : ∀ x ∈ leaves s v, f x = some x) : becomes f s v = some v := by
  induction s with
  | scalar => exact h v (List.mem_singleton_self v)
  | vector s ih =>
    have hitems : ∀ x ∈ elements v, becomes f s x = some x := by
      intro x hx
      exact ih fun l hl => h l (List.mem_flatMap.mpr ⟨x, hx, hl⟩)
    exact mapM_eq_self_iff.mpr hitems
  | set s ih =>
    have hitems : ∀ x ∈ v.items, becomes f s x = some x := by
      intro x hx
      exact ih fun l hl => h l (List.mem_flatMap.mpr ⟨x, hx, hl⟩)
    have hsame : becomes f (set s) v = some (SortedList.ofList v.items) :=
      congrArg (Option.map SortedList.ofList) (mapM_eq_self_iff.mpr hitems)
    exact hsame.trans (congrArg some (SortedList.ofList_eq _))
  | map s ih =>
    have hitems : ∀ i ∈ v.items, (becomes f s i.2).map (Prod.mk i.1) = some i := by
      intro i hi
      rw [ih fun l hl => h l (List.mem_flatMap.mpr ⟨i, hi, hl⟩)]
      rfl
    have hsame : becomes f (map s) v = some (SortedList.ofList v.items) :=
      congrArg (Option.map SortedList.ofList) (mapM_eq_self_iff.mpr hitems)
    exact hsame.trans (congrArg some (SortedList.ofList_eq _))

/-- Without a set, nothing can take the place of something else. -/
theorem becomes_self_iff {f : T → Option T} {s : Shape} (hs : setFree s = true) {v : Val T s} :
    becomes f s v = some v ↔ ∀ x ∈ leaves s v, f x = some x := by
  refine ⟨fun h => ?_, becomes_self⟩
  induction s with
  | scalar =>
    intro l hl
    cases List.mem_singleton.mp hl
    exact h
  | vector s ih =>
    intro l hl
    obtain ⟨x, hx, hl⟩ := List.mem_flatMap.mp hl
    exact ih hs (mapM_eq_self_iff.mp h x hx) l hl
  | set s ih => cases hs
  | map s ih =>
    intro l hl
    obtain ⟨i, hi, hl⟩ := List.mem_flatMap.mp hl
    obtain ⟨items, hitems, heq⟩ := Option.map_eq_some_iff.mp h
    -- the keys are those of `v`, in their order
    have hkeys : items.map Prod.fst = v.items.map Prod.fst := by
      refine map_eq_of_mapM (fun j k hk => ?_) hitems
      obtain ⟨x, -, rfl⟩ := Option.map_eq_some_iff.mp hk
      rfl
    have hsorted : OrderedSet.Sorted Prod.fst items := by
      have hv := List.pairwise_map.mpr v.sorted
      rw [← hkeys] at hv
      exact List.pairwise_map.mp hv
    have hself : items = v.items :=
      (SortedList.ofList_items hsorted).symm.trans (congrArg SortedList.items heq)
    rw [hself] at hitems
    obtain ⟨x, hx, hxi⟩ := Option.map_eq_some_iff.mp (mapM_eq_self_iff.mp hitems i hi)
    have hxi : x = i.2 := congrArg Prod.snd hxi
    exact ih hs (hxi ▸ hx) l hl

end Shape

/-! ## Variables -/

section Variables

variable {T σ : Type} [LinearOrder T] {y : Yaml} {c : LexicalCast T} {doc : T → Node}

/-- A variable keeps its value through `from_string`, without a word to its
listeners, exactly if the text is converted to this value. -/
theorem fromString_same_iff {α : Type} [DecidableEq α] (var : ConfigVar α σ) (fromStr : Str → Option α)
    (text : Str) (st : σ) :
    var.fromString fromStr text st = some (true, var, st) ↔ fromStr text = some var.val := by
  unfold ConfigVar.fromString
  cases hread : fromStr text with
  | none => simp
  | some v =>
    constructor
    · intro h
      obtain ⟨r, hset, heq⟩ := Option.map_eq_some_iff.mp h
      cases heq
      have hval := congrArg ConfigVar.val (var.setValue_spec hset)
      exact congrArg some hval.symm
    · intro h
      cases h
      simp

/-- **Printing a variable and reading its text.** For a variable whose type is
made of vectors, lists, sets and maps in each other, over any scalar type:
the text of its value is read as the value in which each scalar is replaced
by what it is read as after a round through a document of its own. If these
are all the same as before, `from_string` leaves the variable alone; where
there are no sets, only then. -/
theorem printed_value (s : Shape) (hs : s ≠ .scalar) (var : ConfigVar (s.Val T) σ) (st : σ)
    (hloaded : ∀ x ∈ s.leaves var.val, loaded y c x = some (doc x))
    (hreturned : s.Returned y doc var.val) :
    ∃ text, (s.cast y c).toString var.val = some text ∧
      (s.cast y c).fromString text =
        s.becomes (fun x => c.fromString (y.emit (some (doc x)))) var.val ∧
      ((∀ x ∈ s.leaves var.val, c.fromString (y.emit (some (doc x))) = some x) →
        var.fromString (s.cast y c).fromString text st = some (true, var, st)) ∧
      (s.setFree = true → var.fromString (s.cast y c).fromString text st = some (true, var, st) →
        ∀ x ∈ s.leaves var.val, c.fromString (y.emit (some (doc x))) = some x) := by
  have htext := (Shape.cast_toString hloaded hreturned).1 hs
  have hread := Shape.cast_node (c := c) hreturned
  refine ⟨_, htext, hread, fun hleaves => ?_, fun hfree hsame => ?_⟩
  · rw [fromString_same_iff, hread]
    exact Shape.becomes_self hleaves
  · rw [fromString_same_iff, hread] at hsame
    exact (Shape.becomes_self_iff hfree).mp hsame

end Variables

/-- `std::string` in a `std::map<std::string, std::vector<std::string>>` -/
def namesCast : LexicalCast Str := ⟨some, some⟩

def namesShape : Shape := .map (.vector .scalar)

/-- The second name is empty. -/
def names : namesShape.Val Str := ⟨[(str "netif", [str "eth", []])], List.pairwise_singleton _ _⟩

/-- An empty text is a null, which is printed as a tilde. -/
def namesDoc (x : Str) : Node := if x = [] then .null else .scalar x

def namesYaml : Yaml where
  load v :=
    if v = str "netif:\n  - eth\n  - ~" then some (namesShape.node namesDoc names)
    else if v = str "- eth\n- ~" then some (.seq [.scalar (str "eth"), .null])
    else if v = [] ∨ v = str "~" then some .null
    else some (.scalar v)
  emit
    | some (.map _) => str "netif:\n  - eth\n  - ~"
    | some (.seq _) => str "- eth\n- ~"
    | some (.scalar x) => x
    | some .null => str "~"
    | none => []
  mapAt _ _ := none
  nullString := none

theorem printed_value_names :
    ∃ text, (namesShape.cast namesYaml namesCast).toString names = some text ∧
      ∃ v, (namesShape.cast namesYaml namesCast).fromString text = some v ∧
        v.items = [(str "netif", [str "eth", str "~"])] := by
  have hloaded : ∀ x ∈ namesShape.leaves names, loaded namesYaml namesCast x = some (namesDoc x) := by
    intro x hx
    have hx : x ∈ [str "eth", []] := hx
    rcases List.mem_cons.mp hx with rfl | hx
    · rfl
    · cases List.mem_singleton.mp hx
      rfl
  have hreturned : namesShape.Returned namesYaml namesDoc names := by
    refine ⟨rfl, fun i hi => ?_⟩
    cases List.mem_singleton.mp hi
    exact ⟨rfl, fun _ _ => trivial⟩
  obtain ⟨text, htext, hread, -⟩ :=
    printed_value namesShape (nofun) (σ := Unit) ⟨names, []⟩ () hloaded hreturned
  have hbecomes : (namesShape.becomes (fun x => namesCast.fromString (namesYaml.emit (some (namesDoc x))))
      names).map SortedList.items = some [(str "netif", [str "eth", str "~"])] := rfl
  obtain ⟨v, hv, hitems⟩ := Option.map_eq_some_iff.mp hbecomes
  exact ⟨text, htext, v, hread.trans hv, hitems⟩

end TinyTcp.Config
