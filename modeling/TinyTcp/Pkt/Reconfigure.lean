/-
TinyTcp.Pkt.Reconfigure — buffers in use while `tcp.pktbuf_blk_size` is
changed with `ConfigVar::set_value` or `ConfigVar::from_string`, which is
what `load_from_yaml` calls.

The value is read by every call, and by `PktBlock::init`, which has
allocated the payloads before. `Reconfigure.step` is one call or one
change; a call that does not return has no next state. The conversion
`FromStr` of a text is a library function and a parameter here.

`Inside` says that the data window of every block in a buffer lies in the
payload of the block. A change of the value alone never breaks it.
`inside_iff_fits` says which calls do, with payloads of `P` bytes and the
value `B` by then:
* with `B` above `P`, a call that places a window at the end of `B` bytes
  or gives a block more than `P` bytes;
* with `B` below `P`, a growing `resize` of a buffer whose last window
  ends behind `B`: `get_last_size` wraps around, and all bytes go into the
  last block.
-/
import TinyTcp.Config.ConfigVar
import TinyTcp.Lib.Run
import TinyTcp.Pkt.Windows
import TinyTcp.Pkt.World

namespace TinyTcp.Pkt

open TinyTcp.Lib TinyTcp.Config

namespace Reconfigure

/-! ## Calls and changes -/

inductive Call where
  | alloc (i : BufId) (size : UInt32) (allocFront insertFront : Bool)
  | allocHeader (i : BufId) (size : UInt32) (isCont : Bool)
  | resize (i : BufId) (size : UInt32)
  | setContHeader (i : BufId) (size : UInt32)
  | write (i : BufId) (src : Option (List UInt8)) (size : UInt32)
  | setValue (v : UInt32)
  | fromString (val : List UInt8)
  deriving DecidableEq

/-- `g_pktbuf_blk_size`. The program registers no callback for it. -/
def blkSizeVar (w : World) : ConfigVar UInt32 Unit := ⟨.ofNat w.mgr.blkSize, []⟩

def withBlkSize (w : World) (c : ConfigVar UInt32 Unit) : World :=
  { w with mgr := { w.mgr with blkSize := c.val.toNat } }

/-- The state after a call of a member function, if it returns. -/
def after (w : World) (op : Op) : Option World := (w.step op).toOption.map Prod.snd

def step (fromStr : List UInt8 → Option UInt32) (w : World) : Call → Option World
  | .alloc i size allocFront insertFront => after w (.alloc i size.toNat allocFront insertFront)
  | .allocHeader i size isCont => after w (.allocHeader i size.toNat isCont)
  | .resize i size => after w (.resize i size.toNat)
  | .setContHeader i size => after w (.setContHeader i size.toNat)
  | .write i src size => after w (.write i src size.toNat)
  | .setValue v => ((blkSizeVar w).setValue v ()).map fun r => withBlkSize w r.1
  | .fromString val => ((blkSizeVar w).fromString fromStr val ()).map fun r => withBlkSize w r.2.1

/-- After the construction of the manager, with payloads of `P` bytes: the
buffers are empty. -/
structure Start (P : UInt32) (w : World) : Prop where
  blkSize : w.mgr.blkSize = P.toNat
  free : ∀ blk, some blk ∈ w.mgr.pktBlk.items → blk.payload.length = P.toNat
  room : w.mgr.pktBlk.items.length ≤ w.mgr.pktBlk.cap
  blkList : ∀ i, (w.bufs i).blkList = []
  capacity : ∀ i, (w.bufs i).capacity = 0

/-! ## What has to hold -/

/-- Every block in a buffer has its data window inside its payload. -/
def Inside (w : World) : Prop := ∀ i blk, some blk ∈ (w.bufs i).blkList → blk.Inside

/-- The call fits payloads of `P` bytes. -/
def Fits (P : Nat) (w : World) : Call → Prop
  | .alloc _ size allocFront _ => PktBuffer.AllocFits P w.mgr size.toNat allocFront
  | .allocHeader i size isCont => PktBuffer.HeaderFits P w.mgr (w.bufs i) size.toNat isCont
  | .resize i size => PktBuffer.ResizeFits P w.mgr (w.bufs i) size.toNat
  | .setContHeader i size => PktBuffer.ContFits P w.mgr (w.bufs i) size.toNat
  | .write .. | .setValue _ | .fromString _ => True

instance (P : Nat) (w : World) : ∀ c : Call, Decidable (Fits P w c)
  | .alloc _ size allocFront _ =>
      inferInstanceAs (Decidable (PktBuffer.AllocFits P w.mgr size.toNat allocFront))
  | .allocHeader i size isCont =>
      inferInstanceAs (Decidable (PktBuffer.HeaderFits P w.mgr (w.bufs i) size.toNat isCont))
  | .resize i size =>
      inferInstanceAs (Decidable (PktBuffer.ResizeFits P w.mgr (w.bufs i) size.toNat))
  | .setContHeader i size =>
      inferInstanceAs (Decidable (PktBuffer.ContFits P w.mgr (w.bufs i) size.toNat))
  | .write .. | .setValue _ | .fromString _ => isTrue trivial

/-- The invariant: all windows lie in payloads of `P` bytes, and the
numbers are `uint32_t` values. -/
structure Inv (P : Nat) (w : World) : Prop where
  lt : P < 2 ^ 32
  blkSize_lt : w.mgr.blkSize < 2 ^ 32
  windows : ∀ i, PktBuffer.Windows P w.mgr (w.bufs i)

variable {P : Nat} {w w' : World} {fromStr : List UInt8 → Option UInt32}

theorem Inv.inside (h : Inv P w) : Inside w := fun i blk hblk => ((h.windows i).held blk hblk).inside

theorem Start.inv {P : UInt32} (h : Start P w) : Inv P.toNat w := by
  refine ⟨P.toNat_lt, ?_, fun i => ⟨h.free, h.room, ?_, ?_⟩⟩
  · rw [h.blkSize]
    exact P.toNat_lt
  · simp [h.blkList i]
  · rw [h.capacity i, h.blkList i]
    rfl

/-! ## One step -/

/-- A call of one buffer that returned has put back the manager and the buffer. -/
theorem put_of_call {α : Type} {x : Except Fault (α × PktManager × PktBuffer)} {f : α → Reply}
    {i : BufId}
    (h : (x >>= fun r => .ok (f r.1, w.put r.2.1 i r.2.2)).toOption.map Prod.snd = some w') :
    ∃ r m b, x = .ok (r, m, b) ∧ w' = w.put m i b := by
  obtain ⟨⟨reply, w₁⟩, hstep, heq⟩ := Option.map_eq_some_iff.mp h
  obtain ⟨⟨r, m, b⟩, hcall, hput⟩ := bind_eq_ok.mp (eq_ok_of_toOption hstep)
  cases hput
  exact ⟨r, m, b, hcall, heq.symm⟩

/-- A call of one buffer: the windows of the other buffers stay. -/
theorem Inv.put (h : Inv P w) {i : BufId} {m : PktManager} {b : PktBuffer} {fit : Prop}
    (hkeeps : PktBuffer.KeepsIff P w.mgr m b fit) :
    (fit → Inv P (w.put m i b)) ∧ (Inside (w.put m i b) ↔ fit) := by
  have hinv : fit → Inv P (w.put m i b) := by
    intro hfit
    have hb := hkeeps.kept hfit
    refine ⟨h.lt, ?_, fun j => ?_⟩
    · rw [World.put_mgr, hkeeps.blkSize]
      exact h.blkSize_lt
    · by_cases hj : j = i
      · rw [hj, World.put_self]
        exact hb
      · rw [World.put_of_ne w hj]
        exact ⟨hb.free, hb.room, (h.windows j).held, (h.windows j).capacity⟩
  refine ⟨hinv, fun hinside => ?_, fun hfit => (hinv hfit).inside⟩
  by_contra hnot
  obtain ⟨blk, hblk, hout⟩ := hkeeps.escapes hnot
  exact hout (hinside i blk (by rw [World.put_self]; exact hblk))

/-- The windows do not depend on the value. -/
theorem Inv.withBlkSize (h : Inv P w) (c : ConfigVar UInt32 Unit) : Inv P (withBlkSize w c) :=
  ⟨h.lt, c.val.toNat_lt, fun i =>
    ⟨(h.windows i).free, (h.windows i).room, (h.windows i).held, (h.windows i).capacity⟩⟩

/-- A step keeps the windows inside exactly if it fits. -/
theorem step_windows (h : Inv P w) {c : Call} (hstep : step fromStr w c = some w') :
    (Fits P w c → Inv P w') ∧ (Inside w' ↔ Fits P w c) := by
  have hkept : Inv P w' → (True → Inv P w') ∧ (Inside w' ↔ True) :=
    fun hinv => ⟨fun _ => hinv, iff_true_intro hinv.inside⟩
  cases c with
  | alloc i size allocFront insertFront =>
    obtain ⟨ok, m, b, hcall, rfl⟩ := put_of_call hstep
    exact h.put (PktBuffer.alloc_windows (h.windows i) hcall)
  | allocHeader i size isCont =>
    obtain ⟨e, m, b, hcall, rfl⟩ := put_of_call hstep
    exact h.put (PktBuffer.allocHeader_windows (h.windows i) h.lt hcall)
  | resize i size =>
    obtain ⟨e, m, b, hcall, rfl⟩ := put_of_call hstep
    exact h.put (PktBuffer.resize_windows (h.windows i) h.lt h.blkSize_lt size.toNat_lt hcall)
  | setContHeader i size =>
    obtain ⟨e, m, b, hcall, rfl⟩ := put_of_call hstep
    exact h.put (PktBuffer.setContHeader_windows (h.windows i) h.lt hcall)
  | write i src size =>
    obtain ⟨⟨r, w₁⟩, hop, rfl⟩ := Option.map_eq_some_iff.mp hstep
    obtain ⟨⟨e, b⟩, hcall, heq⟩ := bind_eq_ok.mp (eq_ok_of_toOption hop)
    cases heq
    exact h.put (.of_windows trivial rfl (PktBuffer.write_windows (h.windows i) hcall))
  | setValue v =>
    obtain ⟨r, -, rfl⟩ := Option.map_eq_some_iff.mp hstep
    exact hkept (h.withBlkSize r.1)
  | fromString val =>
    obtain ⟨r, -, rfl⟩ := Option.map_eq_some_iff.mp hstep
    exact hkept (h.withBlkSize r.2.1)

/-- After `set_value` the value is the new one, in every state. -/
theorem setValue_blkSize (v : UInt32) : step fromStr w (.setValue v) = some
    { w with mgr := { w.mgr with blkSize := v.toNat } } := by
  simp only [step, blkSizeVar, ConfigVar.setValue_silent, withBlkSize, Option.map_some]

/-- **Reconfiguration.** In a run whose calls all fit, every window stays
inside its payload, and in a run that goes through only then. -/
theorem inside_iff_fits {P : UInt32} (hstart : Start P w) (calls : List Call) :
    (Along (step fromStr) (Fits P.toNat) w calls → Always (step fromStr) Inside w calls) ∧
      ∀ w', run (step fromStr) w calls = some w' →
        (Always (step fromStr) Inside w calls ↔ Along (step fromStr) (Fits P.toNat) w calls) := by
  have hinv := hstart.inv
  refine ⟨always_of_along (fun _ h => h.inside) ?_ calls w hinv, fun w' hrun => ?_⟩
  · intro s c s' hs hfit hstep
    exact (step_windows hs hstep).1 hfit
  · exact always_iff_along_of_run (fun s c s' hs _ hstep => step_windows hs hstep) calls w w' hinv
      hinv.inside hrun

/-! ## Payloads of four bytes -/

def fourBytes : World where
  mgr := {
    blkSize := 4
    pktBlk := ⟨3, [some ⟨0, 0, 0, [0, 0, 0, 0]⟩, some ⟨1, 0, 0, [0, 0, 0, 0]⟩,
      some ⟨2, 0, 0, [0, 0, 0, 0]⟩]⟩
    pktBuf := ⟨0, []⟩ }
  bufs := fun _ => .new

theorem fourBytes_start : Start 4 fourBytes where
  blkSize := rfl
  free := by simp [fourBytes]
  room := by decide
  blkList := fun _ => rfl
  capacity := fun _ => rfl

/-- A change to a smaller value and back, with calls that fit. -/
def lowered : List Call :=
  [.alloc 0 2 true false, .setValue 2, .alloc 1 3 false false, .allocHeader 0 1 true, .setValue 4,
    .resize 0 4, .setContHeader 1 3, .write 1 (some [7, 8, 9]) 3]

theorem inside_lowered :
    (run (step fun _ => none) fourBytes lowered).isSome = true ∧
      Always (step fun _ => none) Inside fourBytes lowered :=
  ⟨by decide, (inside_iff_fits fourBytes_start lowered).1 (by decide)⟩

/-- With a larger value `alloc` gives a block too many bytes. With a
smaller one `resize` takes the slack of the last block for endless. -/
theorem not_inside_reconfigured :
    Start 4 fourBytes ∧
      ¬ Always (step fun _ => none) Inside fourBytes [.setValue 8, .alloc 0 6 true false] ∧
      ¬ Always (step fun _ => none) Inside fourBytes
        [.alloc 0 3 false false, .setValue 2, .resize 0 5] := by
  refine ⟨fourBytes_start, fun h => ?_, fun h => ?_⟩
  · have hout := h.2.2 0 ⟨0, 6, 2, [0, 0, 0, 0]⟩ (by decide)
    exact absurd hout (by decide)
  · have hout := h.2.2.2 0 ⟨0, 8, 0, [0, 0, 0, 0]⟩ (by decide)
    exact absurd hout (by decide)

end Reconfigure

end TinyTcp.Pkt
