/-
TinyTcp.Pkt.AccessRefinement — reading and writing packets refines reading
and writing flat files.

`Files` is the abstract level: a flat file for every buffer, with
`fileStep` for the five access operations. `World.files` forgets blocks,
windows and the three-part cursor. `access_refines_files` says that any
sequence of accesses to buffers whose cursor was just reset returns what
the flat files return and leaves what they leave, that no call faults or
loops forever, and that a failing call changes nothing at all.
-/
import TinyTcp.Lib.Run
import TinyTcp.Pkt.Access
import TinyTcp.Pkt.World

namespace TinyTcp.Pkt

open TinyTcp.Lib PktBuffer

/-! ## The abstract level -/

abbrev Files := BufId → FlatFile UInt8

/-- The access operations on flat files; the others do nothing here. -/
def fileStep (fs : Files) : Op → Reply × Files
  | .seek i offset =>
      match (fs i).seek offset with
      | some f => (.err .ok, Function.update fs i f)
      | none => (.err .size, fs)
  | .read _ none _ => (.read .param none, fs)
  | .read i (some dest) size =>
      if size = 0 then (.read .param (some dest), fs)
      else
        match (fs i).read size with
        | some (bytes, f) => (.read .ok (some (splice dest 0 bytes)), Function.update fs i f)
        | none => (.read .size (some dest), fs)
  | .write _ none _ => (.err .param, fs)
  | .write i (some src) size =>
      if size = 0 then (.err .param, fs)
      else
        match (fs i).write (src.take size) with
        | some f => (.err .ok, Function.update fs i f)
        | none => (.err .size, fs)
  | .fill i v size =>
      if size = 0 then (.err .param, fs)
      else
        match (fs i).write (List.replicate size v) with
        | some f => (.err .ok, Function.update fs i f)
        | none => (.err .size, fs)
  | .copy i src size =>
      match (fs i).copy (fs src) size with
      | some (f, g) => (.err .ok, Function.update (Function.update fs i f) src g)
      | none => (.err .size, fs)
  | _ => (.unit, fs)

/-- An access to buffers that are in use, with the memory the caller has
to provide: `size` bytes behind a pointer that is not null. -/
def Access (live : BufId → Prop) : Op → Prop
  | .seek i _ => live i
  | .read i dest size => live i ∧ ∀ mem ∈ dest, size ≤ mem.length
  | .write i src size => live i ∧ ∀ mem ∈ src, size ≤ mem.length
  | .fill i _ _ => live i
  | .copy i src _ => live i ∧ live src ∧ i ≠ src
  | _ => False

/-- A well-formed buffer whose cursor was just set by `reset_access`. -/
def PktBuffer.JustReset (B : Nat) (b : PktBuffer) : Prop :=
  ∃ blks, b.Holds B blks ∧ sizes blks < 2 ^ 31 ∧ b.resetAccess = .ok b

def PktBuffer.file (b : PktBuffer) : FlatFile UInt8 := ⟨b.bytes, b.pos⟩

def World.files (w : World) : Files := fun i => (w.bufs i).file

/-- Every buffer in use is well formed, with its cursor at the byte `m_pos`. -/
def World.Coherent (live : BufId → Prop) (w : World) : Prop :=
  ∀ i, live i → ∃ blks p, (w.bufs i).Cursor w.mgr.blkSize blks p

/-! ## One access -/

theorem JustReset.cursor {B : Nat} {b : PktBuffer} (h : b.JustReset B) :
    ∃ blks, b.Cursor B blks 0 := by
  obtain ⟨blks, hb, hlt, hreset⟩ := h
  rw [resetAccess_eq hb.list] at hreset
  have hcur := hb.cursor_rewound hlt
  rw [Except.ok.inj hreset] at hcur
  exact ⟨blks, hcur⟩

theorem PktBuffer.Cursor.file_eq {B : Nat} {b : PktBuffer} {blks : List PktBlock} {p : Nat}
    (h : b.Cursor B blks p) : b.file = ⟨content blks, p⟩ := by
  rw [file, h.holds.bytes, h.pos]

theorem World.files_putBuf (w : World) (i : BufId) (b : PktBuffer) :
    (w.putBuf i b).files = Function.update w.files i b.file := by
  funext j
  by_cases hj : j = i
  · rw [hj]
    simp [files]
  · simp [files, hj]

theorem World.Coherent.putBuf {live : BufId → Prop} {w : World} (h : w.Coherent live) {i : BufId}
    {b : PktBuffer} {blks : List PktBlock} {p : Nat} (hb : b.Cursor w.mgr.blkSize blks p) :
    (w.putBuf i b).Coherent live := by
  intro j hj
  by_cases hji : j = i
  · rw [hji]
    exact ⟨blks, p, by simpa using hb⟩
  · simpa [hji] using h j hj

/-- What one access does: the reply and the files are those of `fileStep`. -/
def StepRefines (live : BufId → Prop) (w : World) (op : Op) : Prop :=
  ∃ r w', w.step op = .ok (r, w') ∧ w'.mgr = w.mgr ∧ w'.Coherent live ∧
    fileStep w.files op = (r, w'.files) ∧ (r.succeeded = false → w' = w)

variable {live : BufId → Prop} {w : World}

/-- A successful reply promises nothing about failures. -/
theorem succeeded_of_ok {r : Reply} {P : Prop} (h : r.succeeded = true) :
    r.succeeded = false → P := by
  intro hf
  rw [h] at hf
  exact Bool.noConfusion hf

theorem seek_refines (h : w.Coherent live) {i : BufId} (hi : live i) (offset : Nat) :
    StepRefines live w (.seek i offset) := by
  obtain ⟨blks, p, hcur⟩ := h i hi
  have hfile : w.files i = ⟨content blks, p⟩ := hcur.file_eq
  have hlen : (content blks).length = (w.bufs i).capacity := by
    rw [content_length hcur.holds.ok, hcur.holds.capacity]
  by_cases hle : offset ≤ (w.bufs i).capacity
  · obtain ⟨b', heq, hcur', -⟩ := seek_ok hcur hle
    refine ⟨.err .ok, w.putBuf i b', ?_, rfl, h.putBuf hcur', ?_, succeeded_of_ok rfl⟩
    · simp only [World.step, heq, ok_bind]
    · simp only [fileStep, hfile, FlatFile.seek, hlen, if_pos hle, w.files_putBuf, hcur'.file_eq]
  · have herr := seek_err hcur (show (w.bufs i).capacity < offset by omega)
    refine ⟨.err .size, w, ?_, rfl, h, ?_, fun _ => rfl⟩
    · simp only [World.step, herr, ok_bind, w.putBuf_bufs]
    · simp only [fileStep, hfile, FlatFile.seek, hlen, if_neg hle]

theorem read_refines (h : w.Coherent live) {i : BufId} (hi : live i) {dest : Option (List UInt8)}
    {size : Nat} (hdest : ∀ mem ∈ dest, size ≤ mem.length) :
    StepRefines live w (.read i dest size) := by
  obtain ⟨blks, p, hcur⟩ := h i hi
  have hfile : w.files i = ⟨content blks, p⟩ := hcur.file_eq
  have hlen : (content blks).length = sizes blks := content_length hcur.holds.ok
  cases dest with
  | none =>
    refine ⟨.read .param none, w, ?_, rfl, h, rfl, fun _ => rfl⟩
    simp only [World.step, PktBuffer.read, ok_bind, w.putBuf_bufs]
  | some dest =>
    by_cases hzero : size = 0
    · refine ⟨.read .param (some dest), w, ?_, rfl, h, ?_, fun _ => rfl⟩
      · simp only [World.step, PktBuffer.read, if_pos hzero, ok_bind, w.putBuf_bufs]
      · simp only [fileStep, if_pos hzero]
    · by_cases hfit : size ≤ sizes blks - p
      · obtain ⟨b', heq, hcur', -⟩ :=
          read_ok hcur (hdest dest rfl) (by omega) hfit
        refine ⟨.read .ok (some (splice dest 0 (slice (content blks) p size))), w.putBuf i b', ?_,
          rfl, h.putBuf hcur', ?_, succeeded_of_ok rfl⟩
        · simp only [World.step, heq, ok_bind]
        · simp only [fileStep, if_neg hzero, hfile, FlatFile.read, FlatFile.remain, hlen,
            w.files_putBuf, hcur'.file_eq]
          rw [if_pos ⟨by omega, hfit⟩]
      · refine ⟨.read .size (some dest), w, ?_, rfl, h, ?_, fun _ => rfl⟩
        · simp only [World.step, PktBuffer.read, if_neg hzero, hcur.totalBlkRemain,
            if_pos (show sizes blks - p < size by omega), ok_bind, w.putBuf_bufs]
        · simp only [fileStep, if_neg hzero, hfile, FlatFile.read, FlatFile.remain, hlen]
          rw [if_neg (by omega)]

theorem write_refines (h : w.Coherent live) {i : BufId} (hi : live i) {src : Option (List UInt8)}
    {size : Nat} (hsrc : ∀ mem ∈ src, size ≤ mem.length) :
    StepRefines live w (.write i src size) := by
  obtain ⟨blks, p, hcur⟩ := h i hi
  have hfile : w.files i = ⟨content blks, p⟩ := hcur.file_eq
  have hlen : (content blks).length = sizes blks := content_length hcur.holds.ok
  cases src with
  | none =>
    refine ⟨.err .param, w, ?_, rfl, h, rfl, fun _ => rfl⟩
    simp only [World.step, PktBuffer.write, ok_bind, w.putBuf_bufs]
  | some src =>
    have htake : (src.take size).length = size := by
      have hle := hsrc src rfl
      rw [List.length_take]
      omega
    by_cases hzero : size = 0
    · refine ⟨.err .param, w, ?_, rfl, h, ?_, fun _ => rfl⟩
      · simp only [World.step, PktBuffer.write, if_pos hzero, ok_bind, w.putBuf_bufs]
      · simp only [fileStep, if_pos hzero]
    · by_cases hfit : size ≤ sizes blks - p
      · obtain ⟨b', blks', heq, hcur', -, hcontent, -⟩ :=
          write_ok hcur (hsrc src rfl) (by omega) hfit
        refine ⟨.err .ok, w.putBuf i b', ?_, rfl, h.putBuf hcur', ?_, succeeded_of_ok rfl⟩
        · simp only [World.step, heq, ok_bind]
        · simp only [fileStep, if_neg hzero, hfile, FlatFile.write, FlatFile.remain, hlen, htake,
            w.files_putBuf, hcur'.file_eq, hcontent]
          rw [if_pos ⟨by omega, hfit⟩]
      · refine ⟨.err .size, w, ?_, rfl, h, ?_, fun _ => rfl⟩
        · simp only [World.step, PktBuffer.write, if_neg hzero, hcur.totalBlkRemain,
            if_pos (show sizes blks - p < size by omega), ok_bind, w.putBuf_bufs]
        · simp only [fileStep, if_neg hzero, hfile, FlatFile.write, FlatFile.remain, hlen, htake]
          rw [if_neg (by omega)]

theorem fill_refines (h : w.Coherent live) {i : BufId} (hi : live i) (v : UInt8) (size : Nat) :
    StepRefines live w (.fill i v size) := by
  obtain ⟨blks, p, hcur⟩ := h i hi
  have hfile : w.files i = ⟨content blks, p⟩ := hcur.file_eq
  have hlen : (content blks).length = sizes blks := content_length hcur.holds.ok
  by_cases hzero : size = 0
  · refine ⟨.err .param, w, ?_, rfl, h, ?_, fun _ => rfl⟩
    · simp only [World.step, PktBuffer.fill, if_pos hzero, ok_bind, w.putBuf_bufs]
    · simp only [fileStep, if_pos hzero]
  · by_cases hfit : size ≤ sizes blks - p
    · obtain ⟨b', blks', heq, hcur', -, hcontent, -⟩ := fill_ok hcur v (by omega) hfit
      refine ⟨.err .ok, w.putBuf i b', ?_, rfl, h.putBuf hcur', ?_, succeeded_of_ok rfl⟩
      · simp only [World.step, heq, ok_bind]
      · simp only [fileStep, if_neg hzero, hfile, FlatFile.write, FlatFile.remain, hlen,
          List.length_replicate, w.files_putBuf, hcur'.file_eq, hcontent]
        rw [if_pos ⟨by omega, hfit⟩]
    · refine ⟨.err .size, w, ?_, rfl, h, ?_, fun _ => rfl⟩
      · simp only [World.step, PktBuffer.fill, if_neg hzero, hcur.totalBlkRemain,
          if_pos (show sizes blks - p < size by omega), ok_bind, w.putBuf_bufs]
      · simp only [fileStep, if_neg hzero, hfile, FlatFile.write, FlatFile.remain, hlen,
          List.length_replicate]
        rw [if_neg (by omega)]

theorem copy_refines (h : w.Coherent live) {i src : BufId} (hi : live i) (hj : live src)
    (size : Nat) : StepRefines live w (.copy i src size) := by
  obtain ⟨blks, p, hcur⟩ := h i hi
  obtain ⟨blks', q, hcur'⟩ := h src hj
  have hfile : w.files i = ⟨content blks, p⟩ := hcur.file_eq
  have hfile' : w.files src = ⟨content blks', q⟩ := hcur'.file_eq
  have hlen : (content blks).length = sizes blks := content_length hcur.holds.ok
  have hlen' : (content blks').length = sizes blks' := content_length hcur'.holds.ok
  by_cases hfit : size ≤ sizes blks - p ∧ size ≤ sizes blks' - q
  · obtain ⟨b, s, blks₁, heq, hb, hs, -, hcontent, -⟩ := copy_ok hcur hcur' hfit.1 hfit.2
    refine ⟨.err .ok, (w.putBuf i b).putBuf src s, ?_, rfl, (h.putBuf hb).putBuf hs, ?_,
      succeeded_of_ok rfl⟩
    · simp only [World.step, heq, ok_bind]
    · simp only [fileStep, hfile, hfile', FlatFile.copy, FlatFile.remain, hlen, hlen',
        World.files_putBuf, hb.file_eq, hs.file_eq, hcontent]
      rw [if_pos hfit]
  · refine ⟨.err .size, w, ?_, rfl, h, ?_, fun _ => rfl⟩
    · have herr : (w.bufs i).copy (w.bufs src) size = .ok (.size, w.bufs i, w.bufs src) := by
        rw [PktBuffer.copy, hcur.totalBlkRemain, hcur'.totalBlkRemain, if_pos (by omega)]
      simp only [World.step, herr, ok_bind, w.putBuf_bufs]
    · simp only [fileStep, hfile, hfile', FlatFile.copy, FlatFile.remain, hlen, hlen']
      rw [if_neg hfit]

/-- Every access refines the access to the flat files. -/
theorem access_step (h : w.Coherent live) {op : Op} (hop : Access live op) :
    StepRefines live w op := by
  cases op with
  | seek i offset => exact seek_refines h hop offset
  | read i dest size => exact read_refines h hop.1 hop.2
  | write i src size => exact write_refines h hop.1 hop.2
  | fill i v size => exact fill_refines h hop v size
  | copy i src size => exact copy_refines h hop.1 hop.2.1 size
  | _ => exact hop.elim

/-! ## Sequences of accesses -/

theorem access_refines_files (hstart : ∀ i, live i → (w.bufs i).JustReset w.mgr.blkSize)
    (ops : List Op) (hops : ∀ op ∈ ops, Access live op) :
    ∃ rs w', tryTrace World.step w ops = .ok (rs, w') ∧
      trace fileStep w.files ops = (rs, w'.files) ∧
      ∀ op, Access live op → ∃ r w'', w'.step op = .ok (r, w'') ∧
        fileStep w'.files op = (r, w''.files) ∧ (r.succeeded = false → w'' = w') := by
  have hcoherent : w.Coherent live := by
    intro i hi
    obtain ⟨blks, hcur⟩ := JustReset.cursor (hstart i hi)
    exact ⟨blks, 0, hcur⟩
  have hstep : ∀ (s : World) op, s.Coherent live → Access live op →
      ∃ r s', s.step op = .ok (r, s') ∧ s'.Coherent live ∧ fileStep s.files op = (r, s'.files) := by
    intro s op hs hop
    obtain ⟨r, s', heq, -, hs', hfile, -⟩ := access_step hs hop
    exact ⟨r, s', heq, hs', hfile⟩
  obtain ⟨rs, w', hrun, hw', hfiles⟩ :=
    trace_refines World.files hstep ops w hcoherent hops
  refine ⟨rs, w', hrun, hfiles, fun op hop => ?_⟩
  obtain ⟨r, w'', heq, -, -, hfile, herr⟩ := access_step hw' hop
  exact ⟨r, w'', heq, hfile, herr⟩

/-- Two packets of five bytes in blocks of four, cut differently. -/
def twoPackets : World where
  mgr := { blkSize := 4, pktBlk := ⟨8, []⟩, pktBuf := ⟨8, []⟩ }
  bufs i :=
    if i = 0 then
      { capacity := 5, pos := 0, curBlk := .at 0, blkOffset := some 2, ref := 1
        blkList := [some ⟨0, 2, 2, [0, 0, 1, 2]⟩, some ⟨1, 3, 0, [3, 4, 5, 0]⟩] }
    else
      { capacity := 5, pos := 0, curBlk := .at 0, blkOffset := some 0, ref := 1
        blkList := [some ⟨2, 4, 0, [10, 20, 30, 40]⟩, some ⟨3, 1, 3, [0, 0, 0, 50]⟩] }

def someAccesses : List Op :=
  [.seek 0 1, .copy 0 1 4, .read 1 (some [0, 0]) 1, .read 1 (some [0]) 1, .seek 0 0,
    .read 0 (some [0, 0, 0, 0, 0]) 5, .seek 1 6, .write 1 none 1]

theorem access_refines_files_two_packets :
    ∃ rs w', tryTrace World.step twoPackets someAccesses = .ok (rs, w') ∧
      trace fileStep twoPackets.files someAccesses = (rs, w'.files) ∧
      ∀ op, Access (· < 2) op → ∃ r w'', w'.step op = .ok (r, w'') ∧
        fileStep w'.files op = (r, w''.files) ∧ (r.succeeded = false → w'' = w') := by
  refine access_refines_files (fun i hi => ?_) someAccesses ?_
  · obtain rfl | rfl := Nat.le_one_iff_eq_zero_or_eq_one.mp (Nat.lt_succ_iff.mp hi)
    · exact ⟨[⟨0, 2, 2, [0, 0, 1, 2]⟩, ⟨1, 3, 0, [3, 4, 5, 0]⟩], ⟨rfl, by decide, rfl, by decide⟩,
        by decide, rfl⟩
    · exact ⟨[⟨2, 4, 0, [10, 20, 30, 40]⟩, ⟨3, 1, 3, [0, 0, 0, 50]⟩],
        ⟨rfl, by decide, rfl, by decide⟩, by decide, rfl⟩
  · simp [someAccesses, Access]

end TinyTcp.Pkt
