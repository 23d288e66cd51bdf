/-
TinyTcp.Net.Capture — the capture handles of the Ethernet interfaces:
`EtherNet::open` and `EtherNet::close` of `src/net/netif.cc` under
`netif_open`, `set_deactive` and `netif_close` of `src/net/network.cc`.

The member `m_ops_data` of an interface first points to the caller's
`pcap_data_t` and, once the device is open, to its capture handle; `close`
passes it to `pcap_close` either way. `CaptureNet` is the network of
`Net.DefaultNetif` with that member for each interface, the handles that
`pcap_device_open` has returned, and the arguments of the `pcap_close`
calls so far. `pcap_getnonblock` belongs to the capture library and is a
parameter: `none` says that the call does not come back, which for a null
pointer nothing rules out.

`right_iff_opened` says when every call of a sequence comes back, closes
returned handles only, each once, and leaves the network alone when an
open fails: exactly if `pcap_device_open` never returns null. With a null
handle the call either ends in `pcap_getnonblock`, in front of the null
check, or fails and passes the caller's data to `pcap_close`.
-/
import TinyTcp.Net.DefaultNetif

namespace TinyTcp.Net

open TinyTcp.Lib TinyTcp.Pkt

namespace Capture

/-! ## State and calls -/

/-- What `pcap_device_open` returns, if it is not null. -/
abbrev PcapId := Nat

/-- What the untyped `m_ops_data` points to. -/
inductive OpsData where
  | null
  | data (pcapData : Nat)
  | pcap (handle : PcapId)
  deriving DecidableEq

structure CaptureNet where
  net : INetWork
  opsData : NetifId → OpsData
  returned : List PcapId
  closed : List OpsData

/-- The calls; a new interface object lies at `place`, and `pcap` is what
`pcap_device_open` returns for it. -/
inductive Call where
  | netifOpen (place : NetifId) (pcapData : Nat) (pcap : Option PcapId)
  | setDeactive (netif : NetifId)
  | netifClose (netifIt : Nat)
  deriving DecidableEq

inductive Reply where
  | opened (netif : Option NetifId)
  | done (err : NetErr)
  deriving DecidableEq

/-- `EtherNet::open`: the error and `m_ops_data` afterwards. -/
def etherOpen (getnonblock : Option PcapId → Option Int) (opsData : OpsData)
    (pcap : Option PcapId) : Option (NetErr × OpsData) :=
  match getnonblock pcap with
  | none => none
  -- the answer `-1` is only logged
  | some _ =>
      match pcap with
      | none => some (.io, opsData)
      | some handle => some (.ok, .pcap handle)

namespace CaptureNet

variable (s : CaptureNet)

/-- `EtherNet::close` -/
def etherClose (opsData : OpsData) : CaptureNet := { s with closed := s.closed ++ [opsData] }

/-- `netif_open("eth0", data)`. After a failing open the object is closed and destroyed. -/
def netifOpen (getnonblock : Option PcapId → Option Int) (place : NetifId) (pcapData : Nat)
    (pcap : Option PcapId) : Option (Reply × CaptureNet) :=
  if "eth0" ∉ s.net.registry then some (.opened none, s)
  else
    match etherOpen getnonblock (.data pcapData) pcap with
    | none => none
    | some (err, opsData) =>
        match s.net.netifOpen "eth0" ⟨place, true, err, .ether, .ok⟩ with
        | .error _ => none
        | .ok (netif, net) =>
            let s := { s with
              net := net
              opsData := Function.update s.opsData place opsData
              returned := s.returned ++ pcap.toList }
            some (.opened netif, if err.isErr then s.etherClose opsData else s)

/-- `link_close` of an `EtherNet` does nothing. -/
def setDeactive (netif : NetifId) : Option (Reply × CaptureNet) :=
  match s.net.setDeactive netif with
  | .error _ => none
  | .ok (err, net) => some (.done err, { s with net := net })

/-- `netif->close()` is called when the state test is passed. -/
def netifClose (netifIt : Nat) : Option (Reply × CaptureNet) :=
  match s.net.netifClose netifIt, s.net.netifList[netifIt]? with
  | .ok (err, net), some netif =>
      let closed := if err.isErr then s else s.etherClose (s.opsData netif)
      some (.done err, { closed with net := net })
  | _, _ => none

def call (getnonblock : Option PcapId → Option Int) : Call → Option (Reply × CaptureNet)
  | .netifOpen place pcapData pcap => s.netifOpen getnonblock place pcapData pcap
  | .setDeactive netif => s.setDeactive netif
  | .netifClose netifIt => s.netifClose netifIt

/-- The state a call leaves, if it comes back. -/
def step (getnonblock : Option PcapId → Option Int) (s : CaptureNet) (c : Call) :
    Option CaptureNet :=
  (s.call getnonblock c).map Prod.snd

/-- What the callers and `pcap_device_open` provide: a new object lies
where there is none, a returned handle is fresh, pointers and iterators are
valid. -/
def Valid (s : CaptureNet) : Call → Prop
  | .netifOpen place _ pcap => s.net.netifs place = none ∧ ∀ h ∈ pcap, h ∉ s.returned
  | .setDeactive netif => (s.net.netifs netif).isSome = true
  | .netifClose netifIt => netifIt < s.net.netifList.length

/-! ## What has to hold -/

/-- `pcap_close` was called with returned handles only, and once for each. -/
structure ClosesOk (s : CaptureNet) : Prop where
  handles : ∀ opsData ∈ s.closed, ∃ h ∈ s.returned, opsData = .pcap h
  once : s.closed.Nodup

/-- The interface list and the default interface stay. -/
def Unchanged (s s' : CaptureNet) : Prop :=
  s'.net.netifList = s.net.netifList ∧ s'.net.defaultNetif = s.net.defaultNetif

/-- If the call comes back, what it closed is right, and a failing `netif_open` changes nothing. -/
def Right (getnonblock : Option PcapId → Option Int) (s : CaptureNet) (c : Call) : Prop :=
  ∀ r s', s.call getnonblock c = some (r, s') → s'.ClosesOk ∧ (r = .opened none → s.Unchanged s')

/-- The call comes back, too. -/
def ComesBack (getnonblock : Option PcapId → Option Int) (s : CaptureNet) (c : Call) : Prop :=
  (s.call getnonblock c).isSome = true ∧ Right getnonblock s c

/-- The call does not get a null handle from `pcap_device_open`. -/
def Opened (s : CaptureNet) : Call → Prop
  | .netifOpen _ _ pcap => "eth0" ∈ s.net.registry → pcap ≠ none
  | .setDeactive _ | .netifClose _ => True

/-- The invariant: every interface of the list has a handle of its own,
which is still open. -/
structure Inv (s : CaptureNet) : Prop extends ClosesOk s where
  coherent : s.net.Coherent
  defaultOk : s.net.DefaultOk
  held : ∀ p ∈ s.net.netifList, ∃ h ∈ s.returned, s.opsData p = .pcap h ∧ .pcap h ∉ s.closed
  distinct : ∀ p ∈ s.net.netifList, ∀ q ∈ s.net.netifList, s.opsData p = s.opsData q → p = q

/-- A network without interfaces, before the first call. -/
def start (n : INetWork) : CaptureNet where
  net := n
  opsData := fun _ => .null
  returned := []
  closed := []

theorem start_inv {n : INetWork} (hlist : n.netifList = []) (hnetifs : ∀ p, n.netifs p = none)
    (hdefault : n.defaultNetif = none) : (start n).Inv where
  handles := by simp [start]
  once := List.nodup_nil
  coherent := ⟨by simp [start, hlist], by simp [start, hlist, hnetifs]⟩
  defaultOk := by
    intro p hp
    simp [start, hdefault] at hp
  held := by simp [start, hlist]
  distinct := by simp [start, hlist]

variable {s s' : CaptureNet} {getnonblock : Option PcapId → Option Int} {place netif : NetifId}
  {pcapData netifIt : Nat} {h : PcapId} {r : Reply}

/-! ## netif_open -/

theorem netifOpen_unregistered (hreg : "eth0" ∉ s.net.registry) (pcap : Option PcapId) :
    s.netifOpen getnonblock place pcapData pcap = some (.opened none, s) := by
  simp [netifOpen, hreg]

/-- A null handle that gets past `pcap_getnonblock`: the caller's data are closed. -/
theorem netifOpen_null (hreg : "eth0" ∈ s.net.registry) (hcome : (getnonblock none).isSome = true) :
    s.netifOpen getnonblock place pcapData none = some (.opened none,
      { s with
        opsData := Function.update s.opsData place (.data pcapData)
        closed := s.closed ++ [.data pcapData] }) := by
  obtain ⟨answer, hanswer⟩ := Option.isSome_iff_exists.mp hcome
  have hfail : s.net.netifOpen "eth0" ⟨place, true, .io, .ether, .ok⟩ = .ok (none, s.net) := by
    simp [INetWork.netifOpen, hreg, NetErr.isErr, NetErr.code]
  simp [netifOpen, hreg, etherOpen, hanswer, hfail, etherClose, NetErr.isErr, NetErr.code]

/-- The interface that `netif_open` makes of an open handle. -/
def ethernet (place : NetifId) : Opening := ⟨place, true, .ok, .ether, .ok⟩

theorem netifOpen_ethernet {n : INetWork} (hreg : "eth0" ∈ n.registry) (place : NetifId) :
    n.netifOpen "eth0" (ethernet place) = .ok (some place, n.joined (ethernet place)) := by
  obtain ⟨e, he⟩ := INetWork.setActive_eq
    (n := n.putNetif place { n.constructed with type := .ether }) (INetWork.putNetif_self ..) rfl .ok
  simp only [INetWork.netifOpen, ethernet, hreg, not_true_eq_false, if_false, Bool.not_true,
    Bool.false_eq_true, show NetErr.ok.isErr = false from rfl]
  rw [he]
  rfl

/-- The state after an open that got a handle. -/
def withHandle (s : CaptureNet) (place : NetifId) (h : PcapId) : CaptureNet where
  net := s.net.joined (ethernet place)
  opsData := Function.update s.opsData place (.pcap h)
  returned := s.returned ++ [h]
  closed := s.closed

theorem netifOpen_handle (hreg : "eth0" ∈ s.net.registry)
    (hcome : (getnonblock (some h)).isSome = true) :
    s.netifOpen getnonblock place pcapData (some h) =
      some (.opened (some place), s.withHandle place h) := by
  obtain ⟨answer, hanswer⟩ := Option.isSome_iff_exists.mp hcome
  have hjoin := netifOpen_ethernet hreg place
  unfold ethernet at hjoin
  simp [netifOpen, hreg, etherOpen, hanswer, hjoin, withHandle, ethernet, NetErr.isErr, NetErr.code]

/-- A handle of the list was returned before. -/
theorem Inv.ne_fresh (inv : s.Inv) {p : NetifId} (hp : p ∈ s.net.netifList) (hfresh : h ∉ s.returned) :
    s.opsData p ≠ .pcap h := by
  intro heq
  obtain ⟨k, hk, hdata, -⟩ := inv.held p hp
  rw [heq] at hdata
  cases hdata
  exact hfresh hk

/-- A new interface at the end of the list, with a handle of its own. -/
theorem Inv.withHandle (inv : s.Inv) (hreg : "eth0" ∈ s.net.registry)
    (hplace : s.net.netifs place = none) (hfresh : h ∉ s.returned) : (s.withHandle place h).Inv := by
  have hopen : INetWork.after (s.net.netifOpen "eth0" (ethernet place)) =
      some (s.net.joined (ethernet place)) := by
    rw [netifOpen_ethernet hreg place]
    rfl
  have hkeep := INetWork.netifOpen_default_iff inv.coherent inv.defaultOk hplace hopen
  have hlasting : s.net.Lasting (.netifOpen "eth0" (ethernet place)) := by
    intro _ _ _ hspoils
    exact absurd hspoils.2.2 (show ¬NetErr.ok.isErr = true by decide)
  have hout : ∀ p ∈ s.net.netifList, p ≠ place := by
    rintro p hp rfl
    obtain ⟨f, hf, -⟩ := (inv.coherent.mem p).mp hp
    rw [hplace] at hf
    cases hf
  have hother : ∀ p ∈ s.net.netifList, (s.withHandle place h).opsData p = s.opsData p :=
    fun p hp => Function.update_of_ne (hout p hp) ..
  have hself : (s.withHandle place h).opsData place = .pcap h := Function.update_self ..
  have hmem : ∀ p ∈ (s.withHandle place h).net.netifList, p ∈ s.net.netifList ∨ p = place := by
    intro p hp
    simpa [CaptureNet.withHandle, INetWork.joined, ethernet] using hp
  refine ⟨⟨?_, inv.once⟩, hkeep.1, hkeep.2.mpr hlasting, ?_, ?_⟩
  · intro opsData hclosed
    obtain ⟨k, hk, heq⟩ := inv.handles opsData hclosed
    exact ⟨k, List.mem_append_left _ hk, heq⟩
  · intro p hp
    rcases hmem p hp with hold | rfl
    · obtain ⟨k, hk, hdata, hopen⟩ := inv.held p hold
      exact ⟨k, List.mem_append_left _ hk, (hother p hold).trans hdata, hopen⟩
    · refine ⟨h, List.mem_append_right _ List.mem_cons_self, hself, ?_⟩
      intro hclosed
      obtain ⟨k, hk, heq⟩ := inv.handles _ hclosed
      cases heq
      exact hfresh hk
  · intro p hp q hq heq
    rcases hmem p hp with hpold | hpnew
    · rcases hmem q hq with hqold | hqnew
      · rw [hother p hpold, hother q hqold] at heq
        exact inv.distinct p hpold q hqold heq
      · rw [hother p hpold, hqnew, hself] at heq
        exact absurd heq (inv.ne_fresh hpold hfresh)
    · rcases hmem q hq with hqold | hqnew
      · rw [hpnew, hself, hother q hqold] at heq
        exact absurd heq.symm (inv.ne_fresh hqold hfresh)
      · rw [hpnew, hqnew]

/-! ## set_deactive and netif_close -/

theorem setDeactive_spec (inv : s.Inv) (hvalid : (s.net.netifs netif).isSome = true) :
    ∃ err n', s.setDeactive netif = some (.done err, { s with net := n' }) ∧
      n'.netifList = s.net.netifList ∧ n'.Coherent ∧ n'.DefaultOk := by
  obtain ⟨f, hf⟩ := Option.isSome_iff_exists.mp hvalid
  have hrun : ∃ err n', s.net.setDeactive netif = .ok (err, n') ∧
      n'.netifList = s.net.netifList := by
    by_cases hactive : f.state = .active
    · simp only [INetWork.setDeactive, hf, hactive, ne_eq, not_true_eq_false, if_false]
      refine ⟨_, _, rfl, ?_⟩
      split <;> rfl
    · exact ⟨.state, s.net, by simp [INetWork.setDeactive, hf, hactive], rfl⟩
  obtain ⟨err, n', heq, hlist⟩ := hrun
  obtain ⟨hc, hd⟩ := INetWork.setDeactive_keeps inv.coherent inv.defaultOk (by rw [heq]; rfl)
  exact ⟨err, n', by simp [setDeactive, heq], hlist, hc, hd⟩

/-- A refused close, or one that takes the interface off the list and closes its handle. -/
theorem netifClose_spec (inv : s.Inv) (hvalid : netifIt < s.net.netifList.length) :
    s.netifClose netifIt = some (.done .state, s) ∨
      ∃ n', s.netifClose netifIt = some (.done .ok,
          { s.etherClose (s.opsData s.net.netifList[netifIt]) with net := n' }) ∧
        n'.netifList = s.net.netifList.eraseIdx netifIt ∧ n'.Coherent ∧ n'.DefaultOk := by
  have hget : s.net.netifList[netifIt]? = some s.net.netifList[netifIt] :=
    List.getElem?_eq_getElem hvalid
  obtain ⟨f, hf, -⟩ := (inv.coherent.mem _).mp (List.getElem_mem hvalid)
  by_cases hactive : f.state = .active
  · have heq : s.net.netifClose netifIt = .ok (.state, s.net) := by
      simp [INetWork.netifClose, hget, hf, hactive]
    left
    simp [netifClose, heq, hget, NetErr.isErr, NetErr.code]
  · right
    obtain ⟨n', heq, hlist⟩ : ∃ n', s.net.netifClose netifIt = .ok (.ok, n') ∧
        n'.netifList = s.net.netifList.eraseIdx netifIt := by
      simp only [INetWork.netifClose, hget, hf, if_neg hactive]
      exact ⟨_, rfl, rfl⟩
    have hafter : INetWork.after (s.net.netifClose netifIt) = some n' := by rw [heq]; rfl
    obtain ⟨hc, hd⟩ := INetWork.netifClose_keeps inv.coherent inv.defaultOk hafter
    refine ⟨n', ?_, hlist, hc, hd⟩
    simp [netifClose, heq, hget, NetErr.isErr, NetErr.code]

theorem Inv.sameList (inv : s.Inv) {n' : INetWork} (hlist : n'.netifList = s.net.netifList)
    (hc : n'.Coherent) (hd : n'.DefaultOk) : Inv { s with net := n' } where
  handles := inv.handles
  once := inv.once
  coherent := hc
  defaultOk := hd
  held p hp := inv.held p (by rwa [← hlist])
  distinct p hp q hq := inv.distinct p (by rwa [← hlist]) q (by rwa [← hlist])

/-- The handle of the interface that goes is closed, the others stay open. -/
theorem Inv.close (inv : s.Inv) (hvalid : netifIt < s.net.netifList.length) {n' : INetWork}
    (hlist : n'.netifList = s.net.netifList.eraseIdx netifIt) (hc : n'.Coherent)
    (hd : n'.DefaultOk) :
    Inv { s.etherClose (s.opsData s.net.netifList[netifIt]) with net := n' } := by
  obtain ⟨h, hh, hdata, hopen⟩ := inv.held _ (List.getElem_mem hvalid)
  have hmem : ∀ p ∈ n'.netifList, p ∈ s.net.netifList ∧ p ≠ s.net.netifList[netifIt] := by
    intro p hp
    rw [hlist, ← inv.coherent.nodup.erase_getElem netifIt hvalid,
      inv.coherent.nodup.mem_erase_iff] at hp
    exact ⟨hp.2, hp.1⟩
  refine ⟨⟨?_, ?_⟩, hc, hd, ?_, ?_⟩
  · intro opsData hclosed
    rcases List.mem_append.mp hclosed with hold | hnew
    · exact inv.handles opsData hold
    · rw [List.mem_singleton.mp hnew]
      exact ⟨h, hh, hdata⟩
  · rw [hdata]
    exact List.nodup_append.mpr ⟨inv.once, List.nodup_singleton _, fun o ho k hk heq =>
      hopen (by rwa [← List.mem_singleton.mp hk, ← heq])⟩
  · intro p hp
    obtain ⟨hin, hne⟩ := hmem p hp
    obtain ⟨k, hk, hpdata, hpopen⟩ := inv.held p hin
    refine ⟨k, hk, hpdata, ?_⟩
    intro hclosed
    rcases List.mem_append.mp hclosed with hold | hnew
    · exact hpopen hold
    · have heq := List.mem_singleton.mp hnew
      exact hne (inv.distinct p hin _ (List.getElem_mem hvalid) (hpdata.trans heq))
  · intro p hp q hq heq
    exact inv.distinct p (hmem p hp).1 q (hmem q hq).1 heq

/-! ## One call -/

/-- A call that gets no null handle comes back and keeps the invariant. -/
theorem Inv.call (inv : s.Inv) (hcome : ∀ h, (getnonblock (some h)).isSome = true) {c : Call}
    (hvalid : s.Valid c) (hopened : s.Opened c) :
    ∃ r s', s.call getnonblock c = some (r, s') ∧ s'.Inv ∧ (r = .opened none → s.Unchanged s') := by
  cases c with
  | netifOpen place pcapData pcap =>
    obtain ⟨hplace, hfresh⟩ := hvalid
    by_cases hreg : "eth0" ∈ s.net.registry
    · obtain ⟨h, rfl⟩ := Option.ne_none_iff_exists'.mp (hopened hreg)
      refine ⟨_, _, netifOpen_handle hreg (hcome h), ?_, nofun⟩
      exact inv.withHandle hreg hplace (hfresh h rfl)
    · exact ⟨_, s, netifOpen_unregistered hreg pcap, inv, fun _ => ⟨rfl, rfl⟩⟩
  | setDeactive netif =>
    obtain ⟨err, n', heq, hlist, hc, hd⟩ := setDeactive_spec inv hvalid
    exact ⟨_, _, heq, inv.sameList hlist hc hd, nofun⟩
  | netifClose netifIt =>
    rcases netifClose_spec inv hvalid with heq | ⟨n', heq, hlist, hc, hd⟩
    · exact ⟨_, s, heq, inv, nofun⟩
    · exact ⟨_, _, heq, inv.close hvalid hlist hc hd, nofun⟩

/-- A null handle that gets past `pcap_getnonblock` makes the call close what is no handle. -/
theorem not_right_of_null {pcapData : Nat} (hreg : "eth0" ∈ s.net.registry)
    (hpast : (getnonblock none).isSome = true) :
    ¬ Right getnonblock s (.netifOpen place pcapData none) := by
  intro hright
  obtain ⟨hcloses, -⟩ := hright _ _ (netifOpen_null hreg hpast)
  obtain ⟨h, -, heq⟩ := hcloses.handles (.data pcapData) (List.mem_append_right _ List.mem_cons_self)
  cases heq

/-- One that does not get past it is the end of the call. -/
theorem call_null_eq_none {pcapData : Nat} (hreg : "eth0" ∈ s.net.registry)
    (hstuck : getnonblock none = none) :
    s.call getnonblock (.netifOpen place pcapData none) = none := by
  simp [CaptureNet.call, netifOpen, hreg, etherOpen, hstuck]

theorem eq_null_of_not_opened {c : Call} (h : ¬ s.Opened c) :
    "eth0" ∈ s.net.registry ∧ ∃ place pcapData, c = .netifOpen place pcapData none := by
  cases c with
  | netifOpen place pcapData pcap =>
    have hnull : "eth0" ∈ s.net.registry ∧ pcap = none := by simpa [Opened] using h
    exact ⟨hnull.1, place, pcapData, by rw [hnull.2]⟩
  | setDeactive netif => exact absurd trivial h
  | netifClose netifIt => exact absurd trivial h

theorem Inv.comesBack_iff (inv : s.Inv) (hcome : ∀ h, (getnonblock (some h)).isSome = true)
    {c : Call} (hvalid : s.Valid c) : ComesBack getnonblock s c ↔ s.Opened c := by
  constructor
  · rintro ⟨hback, hright⟩
    by_contra hnot
    obtain ⟨hreg, place, pcapData, rfl⟩ := eq_null_of_not_opened hnot
    cases hnull : getnonblock none with
    | none =>
      rw [call_null_eq_none hreg hnull] at hback
      cases hback
    | some answer => exact not_right_of_null hreg (by rw [hnull]; rfl) hright
  · intro hopened
    obtain ⟨r, s', hcall, inv', hfail⟩ := inv.call hcome hvalid hopened
    refine ⟨by rw [hcall]; rfl, ?_⟩
    intro r₁ s₁ hcall₁
    rw [hcall] at hcall₁
    cases hcall₁
    exact ⟨inv'.toClosesOk, hfail⟩

theorem Inv.right_iff (inv : s.Inv) (hcome : ∀ h, (getnonblock (some h)).isSome = true) {c : Call}
    (hvalid : s.Valid c) : Right getnonblock s c ↔ (getnonblock none = none ∨ s.Opened c) := by
  by_cases hopened : s.Opened c
  · exact iff_of_true ((inv.comesBack_iff hcome hvalid).mpr hopened).2 (.inr hopened)
  · obtain ⟨hreg, place, pcapData, rfl⟩ := eq_null_of_not_opened hopened
    rw [or_iff_left hopened]
    constructor
    · intro hright
      by_contra hpast
      exact not_right_of_null hreg (Option.isSome_iff_ne_none.mpr hpast) hright
    · intro hstuck r s' hcall
      rw [call_null_eq_none hreg hstuck] at hcall
      cases hcall

/-- A call that comes back without a null handle, or is stopped by one, keeps the invariant. -/
theorem Inv.step (inv : s.Inv) (hcome : ∀ h, (getnonblock (some h)).isSome = true) {c : Call}
    (hvalid : s.Valid c) (hok : getnonblock none = none ∨ s.Opened c)
    (hstep : s.step getnonblock c = some s') : s'.Inv := by
  by_cases hopened : s.Opened c
  · obtain ⟨r, s₁, hcall, inv', -⟩ := inv.call hcome hvalid hopened
    rw [CaptureNet.step, hcall] at hstep
    cases hstep
    exact inv'
  · obtain ⟨hreg, place, pcapData, rfl⟩ := eq_null_of_not_opened hopened
    rw [CaptureNet.step, call_null_eq_none hreg (hok.resolve_right hopened)] at hstep
    cases hstep

/-! ## Sequences of calls -/

/-- **Capture handles.** For every sequence of calls on a network without
interfaces, all calls come back, close returned handles only, none twice,
and change nothing if they are opens that fail, exactly if
`pcap_device_open` never returns null. Of the calls that come back alone
this holds exactly if no null handle gets past `pcap_getnonblock`. -/
theorem right_iff_opened (getnonblock : Option PcapId → Option Int)
    (hcome : ∀ h, (getnonblock (some h)).isSome = true) (n : INetWork) (hlist : n.netifList = [])
    (hnetifs : ∀ p, n.netifs p = none) (hdefault : n.defaultNetif = none) (calls : List Call)
    (hvalid : Along (step getnonblock) Valid (start n) calls) :
    (Along (step getnonblock) (ComesBack getnonblock) (start n) calls ↔
        Along (step getnonblock) Opened (start n) calls) ∧
      (Along (step getnonblock) (Right getnonblock) (start n) calls ↔
        Along (step getnonblock) (fun s c => getnonblock none = none ∨ s.Opened c) (start n) calls) := by
  have hstart := start_inv hlist hnetifs hdefault
  constructor
  · refine along_iff_along_of_valid (fun s c inv hvalid => inv.comesBack_iff hcome hvalid) ?_ calls
      (start n) hstart hvalid
    exact fun s c s' inv hvalid hopened hstep => inv.step hcome hvalid (.inr hopened) hstep
  · exact along_iff_along_of_valid (fun s c inv hvalid => inv.right_iff hcome hvalid)
      (fun s c s' inv hvalid hok hstep => inv.step hcome hvalid hok hstep) calls
      (start n) hstart hvalid

/-- A capture library that does not come back from a null pointer. -/
def strict : Option PcapId → Option Int
  | none => none
  | some _ => some 0

/-- A capture library that answers a null pointer with an error. -/
def tolerant : Option PcapId → Option Int
  | none => some (-1)
  | some _ => some 0

instance (s : CaptureNet) : ∀ c : Call, Decidable (s.Valid c)
  | .netifOpen place _ pcap =>
      inferInstanceAs (Decidable (s.net.netifs place = none ∧ ∀ h ∈ pcap, h ∉ s.returned))
  | .setDeactive netif => inferInstanceAs (Decidable ((s.net.netifs netif).isSome = true))
  | .netifClose netifIt => inferInstanceAs (Decidable (netifIt < s.net.netifList.length))

instance (s : CaptureNet) : ∀ c : Call, Decidable (s.Opened c)
  | .netifOpen _ _ pcap => inferInstanceAs (Decidable ("eth0" ∈ s.net.registry → pcap ≠ none))
  | .setDeactive _ => isTrue trivial
  | .netifClose _ => isTrue trivial

/-- Two interfaces; the first one is taken down and closed. -/
def twoInterfaces : List Call :=
  [.netifOpen 0 7 (some 100), .netifOpen 1 8 (some 101), .netifClose 0, .setDeactive 0, .netifClose 0]

theorem comesBack_twoInterfaces :
    Along (step strict) (ComesBack strict) (start .vacant) twoInterfaces :=
  (right_iff_opened strict (fun _ => rfl) .vacant rfl (fun _ => rfl) rfl twoInterfaces
    (by decide)).1.mpr (by decide)

/-- No device can be opened: the call closes the caller's data. A capture
library that does not come back from a null pointer ends it before. -/
theorem not_right_no_device :
    ¬ Along (step tolerant) (Right tolerant) (start .vacant) [.netifOpen 0 7 none] ∧
      (step tolerant (start .vacant) (.netifOpen 0 7 none)).map closed = some [.data 7] ∧
      ¬ Along (step strict) (ComesBack strict) (start .vacant) [.netifOpen 0 7 none] := by
  have hreg : "eth0" ∈ (start .vacant).net.registry := by decide
  refine ⟨fun h => not_right_of_null hreg rfl h.1, by decide, fun h => ?_⟩
  have hback := h.1.1
  rw [call_null_eq_none hreg rfl] at hback
  cases hback

end CaptureNet

end Capture

end TinyTcp.Net
