/-
TinyTcp.Net.DefaultNetif — the interfaces of an `INetWork` and its default
one: `netif_open`, `netif_close`, `set_active` and `set_deactive` of
`src/net/network.cc`, with what they call of `src/net/netif.cc`.

An interface is its address, and the object that lies there has the
members these functions look at. What comes from outside is in the
arguments: where a new object lies and whether the factory made one, and
what the virtual `open` and `link_open` return (`open` also sets the type).

`set_active` sets the default interface before it opens the link, and does
not take that back when the link does not open. `Lasting` says for each
call when this happens, and `defaultOk_iff_lasting` that it is the only
way to a wrong default. Left out: the other members, names, and logging.
-/
import TinyTcp.Lib.Run
import TinyTcp.Pkt.World

namespace TinyTcp.Net

open TinyTcp.Lib TinyTcp.Pkt

/-! ## State -/

/-- `NETIF_STATE` -/
inductive NetifState where
  | closed
  | opened
  | active
  deriving DecidableEq, Repr

/-- `netif_type_t` -/
inductive NetifKind where
  | none
  | ether
  | loop
  deriving DecidableEq, Repr

abbrev NetifId := Nat

structure NetifObj where
  type : NetifKind
  state : NetifState
  inQ : Fifo BufId
  outQ : Fifo BufId
  deriving DecidableEq

/-- The network, the objects, and the packets that are freed with a queue. `registry` are the
names with a factory; the last two are how many packets the queues of an interface hold. -/
structure INetWork where
  packets : World
  netifs : NetifId → Option NetifObj
  netifList : List NetifId
  defaultNetif : Option NetifId
  registry : List String
  inQueueSize : Nat
  outQueueSize : Nat

/-- What a call of `netif_open` meets outside. -/
structure Opening where
  place : NetifId
  made : Bool
  openErr : NetErr
  type : NetifKind
  linkErr : NetErr
  deriving DecidableEq

namespace INetWork

variable (n : INetWork)

def putNetif (netif : NetifId) (f : NetifObj) : INetWork :=
  { n with netifs := Function.update n.netifs netif (some f) }

@[simp] theorem putNetif_self (netif : NetifId) (f : NetifObj) :
    (n.putNetif netif f).netifs netif = some f := Function.update_self ..

@[simp] theorem putNetif_of_ne {netif p : NetifId} (f : NetifObj) (h : p ≠ netif) :
    (n.putNetif netif f).netifs p = n.netifs p := Function.update_of_ne h ..

@[simp] theorem putNetif_list (netif : NetifId) (f : NetifObj) :
    (n.putNetif netif f).netifList = n.netifList := rfl

@[simp] theorem putNetif_default (netif : NetifId) (f : NetifObj) :
    (n.putNetif netif f).defaultNetif = n.defaultNetif := rfl

/-! ## The calls -/

def setActive (netif : NetifId) (linkErr : NetErr) : Except Fault (NetErr × INetWork) :=
  match n.netifs netif with
  | none => .error .nullDeref
  | some f =>
      if f.state ≠ .opened then .ok (.state, n)
      else
        let n :=
          if n.defaultNetif = none ∧ f.type ≠ .loop then { n with defaultNetif := some netif }
          else n
        if linkErr.isErr then .ok (linkErr, n)
        else .ok (.ok, n.putNetif netif { f with state := .active })

/-- The loops of `clear_in_queue` and `clear_out_queue`. -/
def clearQueue (w : World) : List BufId → World
  | [] => w
  | pktbuf :: queue =>
      let (m, b) := PktBuffer.free w.mgr pktbuf (w.bufs pktbuf)
      clearQueue (w.put m pktbuf b) queue

def setDeactive (netif : NetifId) : Except Fault (NetErr × INetWork) :=
  match n.netifs netif with
  | none => .error .nullDeref
  | some f =>
      if f.state ≠ .active then .ok (.state, n)
      else
        let n := { n with packets := clearQueue (clearQueue n.packets f.inQ.items) f.outQ.items }
        let n := if some netif = n.defaultNetif then { n with defaultNetif := none } else n
        .ok (.ok, n.putNetif netif { f with
          state := .opened
          inQ := { f.inQ with items := [] }, outQ := { f.outQ with items := [] } })

/-- `netif_it` is the place in the list. -/
def netifClose (netifIt : Nat) : Except Fault (NetErr × INetWork) :=
  match n.netifList[netifIt]? with
  | none => .error .badIterator
  | some netif =>
      match n.netifs netif with
      | none => .error .nullDeref
      | some f =>
          if f.state = .active then .ok (.state, n)
          else
            let n := n.putNetif netif { f with state := .closed }
            .ok (.ok, { n with netifList := n.netifList.eraseIdx netifIt })

/-- The object after its constructor. -/
def constructed : NetifObj where
  type := .none
  state := .opened
  inQ := ⟨n.inQueueSize, []⟩
  outQ := ⟨n.outQueueSize, []⟩

/-- A failing `open` destroys the object again; the error of `set_active` is ignored. -/
def netifOpen (devName : String) (o : Opening) : Except Fault (Option NetifId × INetWork) :=
  if devName ∉ n.registry then .ok (none, n)
  else if !o.made then .ok (none, n)
  else if o.openErr.isErr then .ok (none, n)
  else do
    let (_, n) ← (n.putNetif o.place { n.constructed with type := o.type }).setActive o.place o.linkErr
    .ok (some o.place, { n with netifList := n.netifList ++ [o.place] })

/-! ## Sequences of calls -/

end INetWork

inductive NetAct where
  | netifOpen (devName : String) (o : Opening)
  | setActive (netif : NetifId) (linkErr : NetErr)
  | setDeactive (netif : NetifId)
  | netifClose (netifIt : Nat)
  deriving DecidableEq

namespace INetWork

/-- The state a call leaves, if it returns. -/
def after {α : Type} : Except Fault (α × INetWork) → Option INetWork
  | .ok (_, n) => some n
  | .error _ => none

/-- Calls with valid pointers and iterators; a new object lies where there is none. -/
def next (n : INetWork) : NetAct → Option INetWork
  | .netifOpen devName o => if n.netifs o.place = none then after (n.netifOpen devName o) else none
  | .setActive netif linkErr => after (n.setActive netif linkErr)
  | .setDeactive netif => after (n.setDeactive netif)
  | .netifClose netifIt => after (n.netifClose netifIt)

/-- The list has every object that is not closed, once. -/
structure Coherent (n : INetWork) : Prop where
  nodup : n.netifList.Nodup
  mem : ∀ p, p ∈ n.netifList ↔ ∃ f, n.netifs p = some f ∧ f.state ≠ .closed

/-- The default interface, if there is one, is in the list and active, and no loop. -/
def DefaultOk (n : INetWork) : Prop :=
  ∀ p, n.defaultNetif = some p →
    p ∈ n.netifList ∧ ∃ f, n.netifs p = some f ∧ f.state = .active ∧ f.type ≠ .loop

/-- `set_active` makes an interface of this type the default one, and its link does not open. -/
def Spoils (n : INetWork) (type : NetifKind) (linkErr : NetErr) : Prop :=
  n.defaultNetif = none ∧ type ≠ .loop ∧ linkErr.isErr = true

/-- When a call leaves a default interface that is right. -/
def Lasting (n : INetWork) : NetAct → Prop
  | .netifOpen devName o =>
      devName ∈ n.registry → o.made = true → o.openErr.isErr = false →
        ¬ n.Spoils o.type o.linkErr
  | .setActive netif linkErr =>
      ∀ f ∈ n.netifs netif, f.state = .opened → ¬ n.Spoils f.type linkErr
  | .setDeactive _ => True
  | .netifClose _ => True

instance (n : INetWork) (type : NetifKind) (linkErr : NetErr) : Decidable (n.Spoils type linkErr) :=
  inferInstanceAs (Decidable (_ ∧ _ ∧ _))

instance (n : INetWork) : ∀ a : NetAct, Decidable (n.Lasting a)
  | .netifOpen .. => inferInstanceAs (Decidable (_ → _ → _ → ¬ _))
  | .setActive netif linkErr =>
      inferInstanceAs (Decidable (∀ f ∈ n.netifs netif, f.state = .opened → ¬ n.Spoils f.type linkErr))
  | .setDeactive _ => isTrue trivial
  | .netifClose _ => isTrue trivial

variable {n n' : INetWork} {p : NetifId} {f : NetifObj} {linkErr : NetErr}

theorem after_eq_some {α : Type} {x : Except Fault (α × INetWork)} (h : after x = some n') :
    ∃ a, x = .ok (a, n') := by
  cases x with
  | error e => cases h
  | ok r =>
    cases h
    exact ⟨r.1, rfl⟩

/-! ## set_active -/

/-- The default interface after `set_active` has looked at an interface. -/
def chosen (n : INetWork) (netif : NetifId) (type : NetifKind) : Option NetifId :=
  if n.defaultNetif = none ∧ type ≠ .loop then some netif else n.defaultNetif

/-- The network after `set_active` on an opened interface. -/
def activated (n : INetWork) (netif : NetifId) (f : NetifObj) (linkErr : NetErr) : INetWork :=
  { n with defaultNetif := n.chosen netif f.type }.putNetif netif
    { f with state := if linkErr.isErr then .opened else .active }

theorem setActive_eq (hf : n.netifs p = some f) (hopened : f.state = .opened) (linkErr : NetErr) :
    ∃ e, n.setActive p linkErr = .ok (e, n.activated p f linkErr) := by
  have hsame : Function.update n.netifs p (some { f with state := .opened }) = n.netifs := by
    rw [← hopened, ← hf]
    exact Function.update_eq_self p n.netifs
  unfold setActive activated chosen
  rw [hf]
  simp only [hopened]
  cases linkErr.isErr with
  | true =>
    refine ⟨linkErr, ?_⟩
    by_cases hfirst : n.defaultNetif = none ∧ f.type ≠ .loop
    · simp [hfirst, putNetif, hsame]
    · simp [hfirst, putNetif, hsame]
  | false =>
    refine ⟨.ok, ?_⟩
    by_cases hfirst : n.defaultNetif = none ∧ f.type ≠ .loop
    · simp [hfirst, putNetif]
    · simp [hfirst, putNetif]

theorem reached_ne_closed (linkErr : NetErr) :
    (if linkErr.isErr then NetifState.opened else .active) ≠ .closed := by
  split
  · decide
  · decide

/-- An interface that is not active is not the default one. -/
theorem DefaultOk.ne_of_not_active (hd : n.DefaultOk) (hp : ∀ f, n.netifs p = some f → f.state ≠ .active) :
    n.defaultNetif ≠ some p := by
  intro heq
  obtain ⟨-, f, hf, hactive, -⟩ := hd p heq
  exact hp f hf hactive

/-- The choice is right exactly if the link of a new default interface opens. -/
theorem defaultOk_chosen (hd : n.DefaultOk) (hne : n.defaultNetif ≠ some p) {type : NetifKind}
    (hdefault : n'.defaultNetif = n.chosen p type) (hlist : p ∈ n'.netifList)
    (hmore : ∀ q ∈ n.netifList, q ∈ n'.netifList) {f' : NetifObj} (hp : n'.netifs p = some f')
    (htype : f'.type = type) (hstate : f'.state = if linkErr.isErr then .opened else .active)
    (hothers : ∀ q, q ≠ p → n'.netifs q = n.netifs q) :
    n'.DefaultOk ↔ ¬ n.Spoils type linkErr := by
  unfold chosen at hdefault
  by_cases hfirst : n.defaultNetif = none ∧ type ≠ .loop
  · rw [if_pos hfirst] at hdefault
    have hspoils : n.Spoils type linkErr ↔ linkErr.isErr = true := by
      simp only [Spoils, hfirst, true_and, ne_eq, not_false_eq_true]
    rw [hspoils]
    constructor
    · intro hd' herr
      obtain ⟨-, g, hg, hactive, -⟩ := hd' p hdefault
      rw [hp] at hg
      cases hg
      rw [hstate, if_pos herr] at hactive
      cases hactive
    · intro hok q hq
      rw [hdefault] at hq
      cases hq
      rw [if_neg hok] at hstate
      exact ⟨hlist, f', hp, hstate, by rw [htype]; exact hfirst.2⟩
  · rw [if_neg hfirst] at hdefault
    refine iff_of_true ?_ fun hspoils => hfirst ⟨hspoils.1, hspoils.2.1⟩
    intro q hq
    rw [hdefault] at hq
    have hqp : q ≠ p := fun heq => hne (by rw [hq, heq])
    obtain ⟨hin, g, hg⟩ := hd q hq
    exact ⟨hmore q hin, g, by rw [hothers q hqp]; exact hg⟩

/-- The list stays right when an object changes that stays open. -/
theorem Coherent.put (hc : n.Coherent) (hf : n.netifs p = some f) (hopen : f.state ≠ .closed)
    {f' : NetifObj} (hopen' : f'.state ≠ .closed) (hlist : n'.netifList = n.netifList)
    (hnetifs : n'.netifs = Function.update n.netifs p (some f')) : n'.Coherent := by
  refine ⟨by rw [hlist]; exact hc.nodup, ?_⟩
  intro q
  rw [hlist, hc.mem q, hnetifs]
  by_cases hq : q = p
  · subst hq
    rw [Function.update_self]
    exact iff_of_true ⟨f, hf, hopen⟩ ⟨f', rfl, hopen'⟩
  · rw [Function.update_of_ne hq]

theorem setActive_default_iff (hc : n.Coherent) (hd : n.DefaultOk)
    (h : after (n.setActive p linkErr) = some n') :
    n'.Coherent ∧ (n'.DefaultOk ↔ n.Lasting (.setActive p linkErr)) := by
  obtain ⟨e, h⟩ := after_eq_some h
  cases hf : n.netifs p with
  | none =>
    unfold setActive at h
    rw [hf] at h
    cases h
  | some f =>
    have hlasting : n.Lasting (.setActive p linkErr) ↔
        (f.state = .opened → ¬ n.Spoils f.type linkErr) := by
      simp [Lasting, hf]
    rw [hlasting]
    by_cases hopened : f.state = .opened
    · obtain ⟨e', heq⟩ := setActive_eq hf hopened linkErr
      rw [heq] at h
      cases h
      have hin : p ∈ n.netifList := (hc.mem p).mpr ⟨f, hf, by rw [hopened]; decide⟩
      have hne : n.defaultNetif ≠ some p := hd.ne_of_not_active fun g hg => by
        rw [hf] at hg
        cases hg
        rw [hopened]
        decide
      rw [forall_prop_of_true hopened]
      refine ⟨hc.put hf (by rw [hopened]; decide) (reached_ne_closed linkErr) rfl rfl, ?_⟩
      exact defaultOk_chosen hd hne rfl hin (fun _ hq => hq) (putNetif_self ..) rfl rfl
        fun q hq => putNetif_of_ne _ _ hq
    · have hsame : n.setActive p linkErr = .ok (.state, n) := by
        unfold setActive
        rw [hf]
        exact if_pos hopened
      rw [hsame] at h
      cases h
      exact ⟨hc, iff_of_true hd fun h => absurd h hopened⟩

/-! ## netif_open -/

/-- The list stays right when a new object is put at its end. -/
theorem Coherent.append (hc : n.Coherent) (hfresh : n.netifs p = none) (hf : n'.netifs p = some f)
    (hopen : f.state ≠ .closed) (hlist : n'.netifList = n.netifList ++ [p])
    (hothers : ∀ q, q ≠ p → n'.netifs q = n.netifs q) : n'.Coherent := by
  have hout : p ∉ n.netifList := by
    intro hin
    obtain ⟨g, hg, -⟩ := (hc.mem p).mp hin
    rw [hfresh] at hg
    cases hg
  refine ⟨?_, fun q => ?_⟩
  · rw [hlist, List.nodup_append]
    refine ⟨hc.nodup, List.nodup_singleton _, ?_⟩
    rintro q hq r hr rfl
    exact hout (List.mem_singleton.mp hr ▸ hq)
  · rw [hlist]
    by_cases hq : q = p
    · rw [hq]
      exact iff_of_true (List.mem_append_right _ List.mem_cons_self) ⟨f, hf, hopen⟩
    · rw [hothers q hq, ← hc.mem q]
      simp [hq]

/-- The network after `netif_open` has made an object. -/
def joined (n : INetWork) (o : Opening) : INetWork :=
  { (n.putNetif o.place { n.constructed with type := o.type }).activated o.place
      { n.constructed with type := o.type } o.linkErr with
    netifList := n.netifList ++ [o.place] }

theorem joined_netifs_of_ne {o : Opening} {q : NetifId} (hq : q ≠ o.place) :
    (n.joined o).netifs q = n.netifs q := by
  have hput : ((n.putNetif o.place { n.constructed with type := o.type }).activated o.place
      { n.constructed with type := o.type } o.linkErr).netifs q = n.netifs q :=
    (putNetif_of_ne _ _ hq).trans (putNetif_of_ne n _ hq)
  exact hput

/-- What `netif_open` does. -/
theorem netifOpen_cases {devName : String} {o : Opening} {r : Option NetifId}
    (h : n.netifOpen devName o = .ok (r, n')) :
    (n' = n ∧ ¬ (devName ∈ n.registry ∧ o.made = true ∧ o.openErr.isErr = false)) ∨
      (devName ∈ n.registry ∧ o.made = true ∧ o.openErr.isErr = false ∧ n' = n.joined o) := by
  unfold netifOpen at h
  split at h
  · rename_i hname
    cases h
    exact .inl ⟨rfl, fun hall => hname hall.1⟩
  rename_i hname
  split at h
  · rename_i hmade
    cases h
    refine .inl ⟨rfl, fun hall => ?_⟩
    rw [hall.2.1] at hmade
    cases hmade
  rename_i hmade
  split at h
  · rename_i herr
    cases h
    refine .inl ⟨rfl, fun hall => ?_⟩
    rw [hall.2.2] at herr
    cases herr
  rename_i herr
  -- the object is set active before it is in the list
  obtain ⟨e, heq⟩ := setActive_eq (n := n.putNetif o.place { n.constructed with type := o.type })
    (putNetif_self ..) rfl o.linkErr
  rw [heq] at h
  cases h
  exact .inr ⟨not_not.mp hname, by simpa using hmade, by simpa using herr, rfl⟩

theorem netifOpen_default_iff (hc : n.Coherent) (hd : n.DefaultOk) {devName : String}
    {o : Opening} (hfresh : n.netifs o.place = none)
    (h : after (n.netifOpen devName o) = some n') :
    n'.Coherent ∧ (n'.DefaultOk ↔ n.Lasting (.netifOpen devName o)) := by
  obtain ⟨r, h⟩ := after_eq_some h
  rcases netifOpen_cases h with ⟨rfl, hnot⟩ | ⟨hname, hmade, hok, rfl⟩
  · exact ⟨hc, iff_of_true hd fun hname hmade hok => absurd ⟨hname, hmade, hok⟩ hnot⟩
  have hlasting : n.Lasting (.netifOpen devName o) ↔ ¬ n.Spoils o.type o.linkErr := by
    simp [Lasting, hname, hmade, hok]
  have hself : (n.joined o).netifs o.place = some { n.constructed with
      type := o.type, state := if o.linkErr.isErr then .opened else .active } := putNetif_self ..
  have hne : n.defaultNetif ≠ some o.place := hd.ne_of_not_active fun f hf => by
    rw [hfresh] at hf
    cases hf
  have hothers : ∀ q, q ≠ o.place → (n.joined o).netifs q = n.netifs q :=
    fun q hq => joined_netifs_of_ne hq
  refine ⟨hc.append hfresh hself (reached_ne_closed o.linkErr) rfl hothers, ?_⟩
  rw [hlasting]
  exact defaultOk_chosen hd hne rfl (List.mem_append_right _ List.mem_cons_self)
    (fun _ hq => List.mem_append_left _ hq) hself rfl rfl hothers

/-! ## set_deactive and netif_close -/

theorem setDeactive_keeps (hc : n.Coherent) (hd : n.DefaultOk)
    (h : after (n.setDeactive p) = some n') : n'.Coherent ∧ n'.DefaultOk := by
  obtain ⟨e, h⟩ := after_eq_some h
  unfold setDeactive at h
  split at h
  · cases h
  rename_i f hf
  split at h
  · cases h
    exact ⟨hc, hd⟩
  rename_i hstate
  have hactive : f.state = .active := not_not.mp hstate
  have hopen : f.state ≠ .closed := by
    rw [hactive]
    decide
  have hopened : NetifState.opened ≠ .closed := by decide
  dsimp only at h
  split at h
  · cases h
    refine ⟨hc.put hf hopen hopened rfl rfl, ?_⟩
    intro q hq
    cases hq
  · rename_i hdefault
    cases h
    refine ⟨hc.put hf hopen hopened rfl rfl, ?_⟩
    intro q hq
    obtain ⟨hin, g, hg⟩ := hd q hq
    have hqp : q ≠ p := fun heq => hdefault (by rw [← heq]; exact hq.symm)
    exact ⟨hin, g, by rw [putNetif_of_ne _ _ hqp]; exact hg⟩

theorem netifClose_keeps (hc : n.Coherent) (hd : n.DefaultOk) {netifIt : Nat}
    (h : after (n.netifClose netifIt) = some n') : n'.Coherent ∧ n'.DefaultOk := by
  obtain ⟨e, h⟩ := after_eq_some h
  unfold netifClose at h
  split at h
  · cases h
  rename_i p hp
  split at h
  · cases h
  rename_i f hf
  split at h
  · cases h
    exact ⟨hc, hd⟩
  rename_i hstate
  cases h
  have hmem : ∀ q, q ∈ n.netifList.eraseIdx netifIt ↔ q ∈ n.netifList ∧ q ≠ p := by
    intro q
    rw [List.mem_eraseIdx_iff_getElem?]
    constructor
    · rintro ⟨i, hi, hq⟩
      refine ⟨List.mem_of_getElem? hq, ?_⟩
      intro heq
      rw [heq, ← hp] at hq
      have hlt := (List.getElem?_eq_some_iff.mp (hq.trans hp)).1
      exact hi ((List.getElem?_inj hlt hc.nodup).mp hq)
    · rintro ⟨hq, hne⟩
      obtain ⟨i, hi⟩ := List.mem_iff_getElem?.mp hq
      refine ⟨i, ?_, hi⟩
      rintro rfl
      rw [hp] at hi
      exact hne (Option.some.inj hi).symm
  constructor
  · refine ⟨hc.nodup.eraseIdx netifIt, ?_⟩
    intro q
    refine (hmem q).trans ?_
    by_cases hq : q = p
    · subst hq
      refine iff_of_false (fun hin => hin.2 rfl) ?_
      rintro ⟨g, hg, hopen⟩
      cases (putNetif_self ..).symm.trans hg
      exact hopen rfl
    · rw [and_iff_left hq, hc.mem q]
      exact exists_congr fun g => by rw [show _ = _ from putNetif_of_ne n _ hq]
  · intro q hq
    obtain ⟨hin, g, hg, hactive, hloop⟩ := hd q hq
    have hqp : q ≠ p := by
      rintro rfl
      rw [hf] at hg
      cases hg
      exact hstate hactive
    refine ⟨(hmem q).mpr ⟨hin, hqp⟩, g, ?_, hactive, hloop⟩
    exact (putNetif_of_ne n _ hqp).trans hg

/-! ## Sequences -/

/-- **One call** leaves a right default interface exactly if it does not make an interface
the default one whose link does not open. -/
theorem next_default_iff {a : NetAct} (hc : n.Coherent) (hd : n.DefaultOk)
    (h : n.next a = some n') : n'.Coherent ∧ (n'.DefaultOk ↔ n.Lasting a) := by
  cases a with
  | netifOpen devName o =>
    simp only [next] at h
    split at h
    · rename_i hfresh
      exact netifOpen_default_iff hc hd hfresh h
    · cases h
  | setActive netif linkErr => exact setActive_default_iff hc hd h
  | setDeactive netif =>
    obtain ⟨hc', hd'⟩ := setDeactive_keeps hc hd h
    exact ⟨hc', iff_of_true hd' trivial⟩
  | netifClose netifIt =>
    obtain ⟨hc', hd'⟩ := netifClose_keeps hc hd h
    exact ⟨hc', iff_of_true hd' trivial⟩

/-- **Default interface.** In a sequence of calls the default interface is null or an
active one of the list, and no loop, after every call, exactly if no call fails to open the
link of a new default interface. -/
theorem defaultOk_iff_lasting {n₀ n : INetWork} (hc : n₀.Coherent) (hd : n₀.DefaultOk)
    (acts : List NetAct) (hrun : run next n₀ acts = some n) :
    Always next DefaultOk n₀ acts ↔ Along next Lasting n₀ acts :=
  always_iff_along_of_run
    (fun _ _ _ hc hd h => (next_default_iff hc hd h).imp_left fun hc' _ => hc')
    acts n₀ n hc hd hrun

/-- No packets and no interfaces; there is a factory for `eth0`. -/
def vacant : INetWork where
  packets := ⟨⟨128, ⟨0, []⟩, ⟨0, []⟩⟩, fun _ => .new⟩
  netifs _ := none
  netifList := []
  defaultNetif := none
  registry := ["eth0"]
  inQueueSize := 50
  outQueueSize := 50

theorem vacant_coherent : vacant.Coherent where
  nodup := List.nodup_nil
  mem _ := by simp [vacant]

theorem vacant_defaultOk : vacant.DefaultOk := fun _ h => nomatch h

/-- An Ethernet interface at address 0 whose link opens or not. -/
def opening (linkErr : NetErr) : Opening := ⟨0, true, .ok, .ether, linkErr⟩

/-- Down, up, down again and closed. -/
def tour : List NetAct :=
  [.netifOpen "eth0" (opening .ok), .setDeactive 0, .setActive 0 .ok, .setDeactive 0, .netifClose 0]

theorem defaultOk_iff_lasting_tour : Always next DefaultOk vacant tour := by
  obtain ⟨n, hrun⟩ := Option.isSome_iff_exists.mp
    (show (run next vacant tour).isSome = true by decide)
  refine (defaultOk_iff_lasting vacant_coherent vacant_defaultOk tour hrun).mpr ?_
  decide

/-- The link does not open: the default interface is only opened, and after `netif_close` it
is not even in the list. -/
theorem default_stays : ¬ Always next DefaultOk vacant
      [.netifOpen "eth0" (opening .io), .netifClose 0] ∧
    (run next vacant [.netifOpen "eth0" (opening .io), .netifClose 0]).map
      (fun n => (n.defaultNetif, n.netifList)) = some (some 0, []) := by
  constructor
  · rintro ⟨-, h, -⟩
    obtain ⟨-, f, hf, hactive, -⟩ := h 0 rfl
    cases hf
    cases hactive
  · decide

end INetWork

end TinyTcp.Net
