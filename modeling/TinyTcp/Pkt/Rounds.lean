/-
TinyTcp.Pkt.Rounds — the rounds of the access loops, for a cursor that need
not be at byte `m_pos`.

`Walked` and `CopyWalked` are the loops of `seek`, `read`, `write`, `fill`
and `copy` without fuel: a derivation is a finite run of the loop, each
round of which handles at least one byte, inside the window of a block of
the list (`InWindow`). `Walked.walk` takes such a run back to the loop with
fuel. Whether there is one depends on the bytes in front of the cursor
alone, so `Spot` says where the cursor is and nothing about `m_pos`.
-/
import TinyTcp.Pkt.Access

namespace TinyTcp.Pkt.PktBuffer

open TinyTcp.Lib

/-! ## Rounds -/

/-- There are `c` bytes, at least one, from the cursor on in the window of a
block of the list. -/
structure InWindow (b : PktBuffer) (c : Nat) : Prop where
  pos : 0 < c
  inside : ∃ i blk k, b.curBlk = .at i ∧ b.blkList[i]? = some (some blk) ∧
    b.blkOffset = some (blk.data + k) ∧ k + c ≤ blk.size

/-- The loop over `size` bytes comes to its end, and every round handles
bytes of a window. -/
inductive Walked {σ : Type} (touch : σ → Nat → PktBuffer → Except Fault (σ × PktBuffer)) :
    Nat → σ → PktBuffer → σ → PktBuffer → Prop where
  | done (s : σ) (b : PktBuffer) : Walked touch 0 s b s b
  | round {size remain c : Nat} {s s₁ s' : σ} {b b₁ b₂ b' : PktBuffer} (hsize : 0 < size)
      (hremain : b.curBlkRemainSize = .ok remain) (hc : c = min size remain)
      (hwindow : b.InWindow c) (htouch : touch s c b = .ok (s₁, b₁))
      (hmove : b₁.moveForward c = .ok b₂) (hrest : Walked touch (size - c) s₁ b₂ s' b') :
      Walked touch size s b s' b'

/-- The same for the loop of `copy`: the bytes lie in windows of both buffers. -/
inductive CopyWalked :
    Nat → PktBuffer → PktBuffer → PktBuffer → PktBuffer → Prop where
  | done (dest src : PktBuffer) : CopyWalked 0 dest src dest src
  | round {size destRemain srcRemain c : Nat} {bytes : List UInt8}
      {dest dest₁ dest₂ dest' src src₁ src' : PktBuffer} (hsize : 0 < size)
      (hdest : dest.curBlkRemainSize = .ok destRemain)
      (hsrc : src.curBlkRemainSize = .ok srcRemain)
      (hc : c = min size (min destRemain srcRemain))
      (hwindow : dest.InWindow c) (hwindow' : src.InWindow c)
      (hload : src.loadCur c = .ok bytes) (hstore : dest.storeCur bytes = .ok dest₁)
      (hmove : dest₁.moveForward c = .ok dest₂) (hmove' : src.moveForward c = .ok src₁)
      (hrest : CopyWalked (size - c) dest₂ src₁ dest' src') :
      CopyWalked size dest src dest' src'

/-- No round is lost on nothing, so `size` rounds are enough. -/
theorem Walked.walk {σ : Type} {touch : σ → Nat → PktBuffer → Except Fault (σ × PktBuffer)}
    {size : Nat} {s s' : σ} {b b' : PktBuffer} (h : Walked touch size s b s' b') (fuel : Nat)
    (hfuel : size ≤ fuel) : PktBuffer.walk touch fuel size s b = .ok (s', b') := by
  induction h generalizing fuel with
  | done s b => cases fuel <;> rfl
  | @round size remain c s s₁ s' b b₁ b₂ b' hsize hremain hc hwindow htouch hmove hrest ih =>
    have hpos := hwindow.pos
    obtain ⟨n, rfl⟩ := Nat.exists_eq_succ_of_ne_zero (show size ≠ 0 by omega)
    obtain ⟨f, rfl⟩ := Nat.exists_eq_succ_of_ne_zero (show fuel ≠ 0 by omega)
    have hnext := ih f (by omega)
    simp only [PktBuffer.walk, hremain, ok_bind, ← hc, htouch, hmove, hnext]

theorem CopyWalked.copyLoop {size : Nat} {dest dest' src src' : PktBuffer}
    (h : CopyWalked size dest src dest' src') (fuel : Nat) (hfuel : size ≤ fuel) :
    PktBuffer.copyLoop fuel size dest src = .ok (dest', src') := by
  induction h generalizing fuel with
  | done dest src => cases fuel <;> rfl
  | @round size _ _ c _ _ _ _ _ _ _ _ hsize hdest hsrc hc hwindow hwindow' hload hstore hmove
      hmove' hrest ih =>
    have hpos := hwindow.pos
    obtain ⟨n, rfl⟩ := Nat.exists_eq_succ_of_ne_zero (show size ≠ 0 by omega)
    obtain ⟨f, rfl⟩ := Nat.exists_eq_succ_of_ne_zero (show fuel ≠ 0 by omega)
    have hnext := ih f (by omega)
    simp only [PktBuffer.copyLoop, hdest, hsrc, ok_bind, ← hc, hload, hstore, hmove, hmove', hnext]

/-! ## The cursor in a window -/

/-- The list is well formed and the cursor at byte `q` of it, whatever
`m_pos` and `m_capacity` are. -/
structure Spot (B : Nat) (b : PktBuffer) (blks : List PktBlock) (q : Nat) : Prop where
  list : b.blkList = blks.map some
  ok : ∀ blk ∈ blks, blk.Ok B
  lt : sizes blks < 2 ^ 32
  here : At b.curBlk b.blkOffset blks q

/-- The cursor is at byte `k` of the window of `blk`. -/
structure Window (B : Nat) (b : PktBuffer) (pre : List PktBlock) (blk : PktBlock)
    (post : List PktBlock) (k : Nat) : Prop where
  list : b.blkList = (pre ++ blk :: post).map some
  ok : ∀ blk' ∈ pre ++ blk :: post, blk'.Ok B
  lt : sizes (pre ++ blk :: post) < 2 ^ 32
  inside : k < blk.size
  cur : b.curBlk = .at pre.length
  off : b.blkOffset = some (blk.data + k)

variable {B : Nat} {b : PktBuffer} {blks pre post : List PktBlock} {blk : PktBlock} {q k c n : Nat}

theorem Spot.window (h : b.Spot B blks q) (hlt : q < sizes blks) :
    ∃ pre blk post k, blks = pre ++ blk :: post ∧ q = sizes pre + k ∧ b.Window B pre blk post k := by
  obtain ⟨pre, blk, post, k, hsplit, hk, hcur, hoff, hq⟩ := h.here.exists_inside hlt
  refine ⟨pre, blk, post, k, hsplit, hq, ?_, ?_, ?_, hk, hcur, hoff⟩
  · rw [← hsplit]
    exact h.list
  · rw [← hsplit]
    exact h.ok
  · rw [← hsplit]
    exact h.lt

namespace Window

theorem size_lt (h : b.Window B pre blk post k) : blk.size < 2 ^ 32 :=
  Nat.lt_of_le_of_lt (size_le_sizes (by simp)) h.lt

theorem remain (h : b.Window B pre blk post k) : b.curBlkRemainSize = .ok (blk.size - k) :=
  curBlkRemainSize_eq h.list h.cur h.off h.inside h.size_lt

theorem inWindow (h : b.Window B pre blk post k) (hpos : 0 < c) (hc : k + c ≤ blk.size) :
    b.InWindow c := by
  refine ⟨hpos, pre.length, blk, k, h.cur, ?_, h.off, hc⟩
  rw [h.list]
  simp

theorem load (h : b.Window B pre blk post k) (hc : k + c ≤ blk.size) :
    ∃ bytes, b.loadCur c = .ok bytes ∧ bytes.length = c := by
  have hblk : blk.Ok B := h.ok blk (by simp)
  refine ⟨_, loadCur_eq h.list hblk h.cur h.off hc, ?_⟩
  rw [length_slice_of_le (by rw [hblk.window_length]; exact hc)]

/-- A block with another payload does not move the window. -/
theorem withPayload (h : b.Window B pre blk post k) {blk' : PktBlock} (hblk' : blk'.Ok B)
    (hsize : blk'.size = blk.size) (hdata : blk'.data = blk.data) :
    PktBuffer.Window B { b with blkList := (pre ++ blk' :: post).map some } pre blk' post k := by
  refine ⟨rfl, ?_, ?_, ?_, h.cur, ?_⟩
  · intro other hother
    rcases List.mem_append.mp hother with hpre | hrest
    · exact h.ok other (List.mem_append_left _ hpre)
    · rcases List.mem_cons.mp hrest with hself | hpost
      · rw [hself]
        exact hblk'
      · exact h.ok other (List.mem_append_right _ (List.mem_cons_of_mem _ hpost))
  · have hlt := h.lt
    rw [sizes_append, sizes_cons] at hlt ⊢
    rw [hsize]
    exact hlt
  · rw [hsize]
    exact h.inside
  · rw [hdata]
    exact h.off

theorem store (h : b.Window B pre blk post k) (xs : List UInt8) (hpos : 0 < xs.length)
    (hc : k + xs.length ≤ blk.size) :
    ∃ blk', b.storeCur xs = .ok { b with blkList := (pre ++ blk' :: post).map some } ∧
      blk'.Ok B ∧ blk'.size = blk.size ∧ blk'.data = blk.data := by
  have hblk : blk.Ok B := h.ok blk (by simp)
  exact ⟨_, storeCur_eq h.list hblk h.cur h.off hpos hc, ok_store hblk hc, rfl, rfl⟩

theorem move (h : b.Window B pre blk post k) (hc : k + c ≤ blk.size) :
    ∃ b', b.moveForward c = .ok b' ∧ b'.Spot B (pre ++ blk :: post) (sizes pre + k + c) ∧
      b'.pos = add32 b.pos c ∧ b'.capacity = b.capacity := by
  obtain ⟨cur, off, heq, hat⟩ := moveForward_eq h.list h.ok h.cur h.off hc
  exact ⟨_, heq, ⟨h.list, h.ok, h.lt, hat⟩, rfl, rfl⟩

end Window

/-! ## Whole walks -/

/-- The body of a loop handles the next `c` bytes of a window, and changes
payloads only. `good n s` says that the caller's side has room for `n` bytes. -/
def Serves {σ : Type} (B : Nat) (touch : σ → Nat → PktBuffer → Except Fault (σ × PktBuffer))
    (good : Nat → σ → Prop) : Prop :=
  ∀ b pre blk post k s c n, PktBuffer.Window B b pre blk post k → 0 < c → c ≤ n →
    k + c ≤ blk.size → good n s →
    ∃ s' blk', touch s c b = .ok (s', { b with blkList := (pre ++ blk' :: post).map some }) ∧
      blk'.Ok B ∧ blk'.size = blk.size ∧ blk'.data = blk.data ∧ good (n - c) s'

/-- With `n` bytes in front of the cursor the loop over them goes through. -/
theorem Spot.walked {σ : Type} {touch : σ → Nat → PktBuffer → Except Fault (σ × PktBuffer)}
    {good : Nat → σ → Prop} (hserves : Serves B touch good) (n : Nat) {s : σ} {b : PktBuffer}
    {blks : List PktBlock} {q : Nat} (h : b.Spot B blks q) (hfit : q + n ≤ sizes blks)
    (hbound : b.pos + n < 2 ^ 32) (hgood : good n s) :
    ∃ s' b' blks', Walked touch n s b s' b' ∧ b'.Spot B blks' (q + n) ∧
      sizes blks' = sizes blks ∧ b'.pos = b.pos + n ∧ b'.capacity = b.capacity := by
  induction n using Nat.strongRecOn generalizing s b blks q with
  | ind n ih =>
    by_cases hzero : n = 0
    · subst hzero
      exact ⟨s, b, blks, .done s b, h, rfl, rfl, rfl⟩
    obtain ⟨pre, blk, post, k, rfl, rfl, hwin⟩ := h.window (by omega)
    have hk := hwin.inside
    obtain ⟨c, hc⟩ : ∃ c, c = min n (blk.size - k) := ⟨_, rfl⟩
    obtain ⟨s₁, blk₁, htouch, hok₁, hsize₁, hdata₁, hgood₁⟩ :=
      hserves b pre blk post k s c n hwin (by omega) (by omega) (by omega) hgood
    have hwin₁ := hwin.withPayload hok₁ hsize₁ hdata₁
    obtain ⟨b₂, hmove, hspot₂, hpos₂, hcap₂⟩ :=
      hwin₁.move (show k + c ≤ blk₁.size by rw [hsize₁]; omega)
    have hsizes : sizes (pre ++ blk₁ :: post) = sizes (pre ++ blk :: post) := by simp [hsize₁]
    have hpos : b₂.pos = b.pos + c := by
      rw [hpos₂]
      exact wrapAdd_eq (show b.pos + c < 2 ^ 32 by omega)
    obtain ⟨s', b', blks', hwalked, hspot', hsizes', hpos', hcap'⟩ :=
      ih (n - c) (by omega) hspot₂ (by omega) (by omega) hgood₁
    refine ⟨s', b', blks', ?_, ?_, hsizes'.trans hsizes, by omega, hcap'.trans hcap₂⟩
    · exact .round (by omega) hwin.remain hc (hwin.inWindow (by omega) (by omega)) htouch hmove
        hwalked
    · have hsum : sizes pre + k + c + (n - c) = sizes pre + k + n := by omega
      rw [hsum] at hspot'
      exact hspot'

theorem Spot.copyWalked (n : Nat) {dest src : PktBuffer} {B' : Nat} {blks blks' : List PktBlock}
    {q q' : Nat} (hdest : dest.Spot B blks q) (hsrc : src.Spot B' blks' q')
    (hfit : q + n ≤ sizes blks) (hfit' : q' + n ≤ sizes blks') (hbound : dest.pos + n < 2 ^ 32)
    (hbound' : src.pos + n < 2 ^ 32) :
    ∃ dest' src' blks₁, CopyWalked n dest src dest' src' ∧ dest'.Spot B blks₁ (q + n) ∧
      sizes blks₁ = sizes blks ∧ dest'.pos = dest.pos + n ∧ dest'.capacity = dest.capacity ∧
      src'.Spot B' blks' (q' + n) ∧ src'.pos = src.pos + n ∧ src'.capacity = src.capacity := by
  induction n using Nat.strongRecOn generalizing dest src blks q q' with
  | ind n ih =>
    by_cases hzero : n = 0
    · subst hzero
      exact ⟨dest, src, blks, .done dest src, hdest, rfl, rfl, rfl, hsrc, rfl, rfl⟩
    obtain ⟨pre, blk, post, k, rfl, rfl, hwin⟩ := hdest.window (by omega)
    obtain ⟨pre', blk', post', k', rfl, rfl, hwin'⟩ := hsrc.window (by omega)
    have hk := hwin.inside
    have hk' := hwin'.inside
    obtain ⟨c, hc⟩ : ∃ c, c = min n (min (blk.size - k) (blk'.size - k')) := ⟨_, rfl⟩
    obtain ⟨bytes, hload, hlen⟩ := hwin'.load (show k' + c ≤ blk'.size by omega)
    obtain ⟨blk₁, hstore, hok₁, hsize₁, hdata₁⟩ :=
      hwin.store bytes (by omega) (by omega)
    have hwin₁ := hwin.withPayload hok₁ hsize₁ hdata₁
    obtain ⟨dest₂, hmove, hspot₂, hpos₂, hcap₂⟩ :=
      hwin₁.move (show k + c ≤ blk₁.size by rw [hsize₁]; omega)
    obtain ⟨src₁, hmove', hspot₁, hpos₁, hcap₁⟩ := hwin'.move (show k' + c ≤ blk'.size by omega)
    have hsizes : sizes (pre ++ blk₁ :: post) = sizes (pre ++ blk :: post) := by simp [hsize₁]
    have hpos : dest₂.pos = dest.pos + c := by
      rw [hpos₂]
      exact wrapAdd_eq (show dest.pos + c < 2 ^ 32 by omega)
    have hpos' : src₁.pos = src.pos + c := by
      rw [hpos₁]
      exact wrapAdd_eq (show src.pos + c < 2 ^ 32 by omega)
    obtain ⟨dest', src', blks₂, hwalked, hspotd, hsizes₂, hposd, hcapd, hspots, hposs, hcaps⟩ :=
      ih (n - c) (by omega) hspot₂ hspot₁ (by omega) (by omega) (by omega) (by omega)
    have hsum : sizes pre + k + c + (n - c) = sizes pre + k + n := by omega
    have hsum' : sizes pre' + k' + c + (n - c) = sizes pre' + k' + n := by omega
    rw [hsum] at hspotd
    rw [hsum'] at hspots
    refine ⟨dest', src', blks₂, ?_, hspotd, hsizes₂.trans hsizes, by omega, hcapd.trans hcap₂,
      hspots, by omega, hcaps.trans hcap₁⟩
    exact .round (by omega) hwin.remain hwin'.remain hc (hwin.inWindow (by omega) (by omega))
      (hwin'.inWindow (by omega) (by omega)) hload hstore hmove hmove' hwalked

/-- A loop that goes through has had its bytes in front of the cursor. -/
theorem Walked.fits {σ : Type} {touch : σ → Nat → PktBuffer → Except Fault (σ × PktBuffer)}
    {good : Nat → σ → Prop} (hserves : Serves B touch good) {size : Nat} {s s' : σ}
    {b b' : PktBuffer} (h : Walked touch size s b s' b') {blks : List PktBlock} {q : Nat}
    (hspot : b.Spot B blks q) (hgood : good size s) : q + size ≤ sizes blks := by
  induction h generalizing blks q with
  | done s b => exact hspot.here.le
  | @round size remain c s s₁ s' b b₁ b₂ b' hsize hremain hc hwindow htouch hmove hrest ih =>
    have hlt : q < sizes blks := by
      by_contra hend
      have hle := hspot.here.le
      obtain rfl : q = sizes blks := by omega
      obtain ⟨-, i, blk, k, hcur, -⟩ := hwindow
      rw [hspot.here.done_of_end] at hcur
      cases hcur
    obtain ⟨pre, blk, post, k, rfl, rfl, hwin⟩ := hspot.window hlt
    have hpos := hwindow.pos
    obtain rfl : blk.size - k = remain := Except.ok.inj (hwin.remain.symm.trans hremain)
    obtain ⟨s₂, blk₁, htouch₁, hok₁, hsize₁, hdata₁, hgood₁⟩ :=
      hserves b pre blk post k s c size hwin (by omega) (by omega) (by omega) hgood
    rw [htouch] at htouch₁
    cases htouch₁
    obtain ⟨b₃, hmove₁, hspot₂, -⟩ :=
      (hwin.withPayload hok₁ hsize₁ hdata₁).move (show k + c ≤ blk₁.size by rw [hsize₁]; omega)
    rw [hmove] at hmove₁
    cases hmove₁
    have hrestfits := ih hspot₂ hgood₁
    have hsizes : sizes (pre ++ blk₁ :: post) = sizes (pre ++ blk :: post) := by simp [hsize₁]
    omega

/-! ## The bodies of the loops -/

def seekTouch (_ : Unit) (_ : Nat) (b : PktBuffer) : Except Fault (Unit × PktBuffer) := .ok ((), b)

def fillTouch (v : UInt8) (_ : Unit) (c : Nat) (b : PktBuffer) :
    Except Fault (Unit × PktBuffer) := do
  .ok ((), ← b.storeCur (List.replicate c v))

def writeTouch (src : List UInt8) (c : Nat) (b : PktBuffer) :
    Except Fault (List UInt8 × PktBuffer) := do
  let bytes ← PktBuffer.load src 0 c
  let b ← b.storeCur bytes
  .ok (src.drop c, b)

def readTouch (s : Nat × List UInt8) (c : Nat) (b : PktBuffer) :
    Except Fault ((Nat × List UInt8) × PktBuffer) := do
  let bytes ← b.loadCur c
  let dest ← PktBuffer.store s.2 s.1 bytes
  .ok ((s.1 + c, dest), b)

/-- The buffer from which the loop of `seek` starts, and how far it goes. -/
def seekStart (b : PktBuffer) (offset : Nat) : Except Fault (PktBuffer × Nat) :=
  if offset < b.pos then
    match b.blkList with
    | [] => .error .badIterator
    | none :: _ => .error .nullDeref
    | some blk :: _ => .ok ({ b with curBlk := .at 0, blkOffset := some blk.data, pos := 0 }, offset)
  else .ok (b, sub32 offset b.pos)

theorem seek_loop {offset moveBytes : Nat} {b₀ b' : PktBuffer} (hne : b.pos ≠ offset)
    (hle : offset ≤ b.capacity) (hstart : b.seekStart offset = .ok (b₀, moveBytes))
    (h : Walked seekTouch moveBytes () b₀ () b') : b.seek offset = .ok (.ok, b') := by
  have hwalk := h.walk (b₀.fuel moveBytes) (by simp only [fuel]; omega)
  rw [seek, if_neg hne, if_neg (by omega)]
  unfold seekStart at hstart
  split at hstart
  · rename_i hback
    rw [if_pos hback]
    split at hstart
    · cases hstart
    · cases hstart
    · cases hstart
      rename_i hlist
      simp only [hlist] at hwalk ⊢
      exact congrArg (fun r => r >>= fun x => Except.ok (NetErr.ok, x.2)) hwalk
  · rename_i hback
    cases hstart
    rw [if_neg hback]
    exact congrArg (fun r => r >>= fun x => Except.ok (NetErr.ok, x.2)) hwalk

theorem fill_loop {v : UInt8} {size : Nat} {b' : PktBuffer} (hpos : size ≠ 0)
    (hremain : size ≤ b.totalBlkRemain) (h : Walked (fillTouch v) size () b () b') :
    b.fill v size = .ok (.ok, b') := by
  have hwalk := h.walk (b.fuel size) (by simp only [fuel]; omega)
  rw [fill, if_neg hpos, if_neg (by omega)]
  exact congrArg (fun r => r >>= fun x => Except.ok (NetErr.ok, x.2)) hwalk

theorem write_loop {src src' : List UInt8} {size : Nat} {b' : PktBuffer} (hpos : size ≠ 0)
    (hremain : size ≤ b.totalBlkRemain) (h : Walked writeTouch size src b src' b') :
    b.write (some src) size = .ok (.ok, b') := by
  have hwalk := h.walk (b.fuel size) (by simp only [fuel]; omega)
  simp only [write, if_neg hpos, if_neg (show ¬ b.totalBlkRemain < size by omega)]
  exact congrArg (fun r => r >>= fun x => Except.ok (NetErr.ok, x.2)) hwalk

theorem read_loop {dest : List UInt8} {s' : Nat × List UInt8} {size : Nat} {b' : PktBuffer}
    (hpos : size ≠ 0) (hremain : size ≤ b.totalBlkRemain)
    (h : Walked readTouch size (0, dest) b s' b') :
    b.read (some dest) size = .ok (.ok, some s'.2, b') := by
  have hwalk := h.walk (b.fuel size) (by simp only [fuel]; omega)
  simp only [read, if_neg hpos, if_neg (show ¬ b.totalBlkRemain < size by omega)]
  exact congrArg (fun r => r >>= fun x => Except.ok (NetErr.ok, some x.1.2, x.2)) hwalk

theorem copy_loop {dest dest' src src' : PktBuffer} {size : Nat}
    (hremain : size ≤ dest.totalBlkRemain) (hremain' : size ≤ src.totalBlkRemain)
    (h : CopyWalked size dest src dest' src') : dest.copy src size = .ok (.ok, dest', src') := by
  have hloop := h.copyLoop (dest.fuel size + src.blkList.length) (by simp only [fuel]; omega)
  rw [copy, if_neg (by omega)]
  simp only [hloop, ok_bind]

theorem seek_serves (B : Nat) : Serves B seekTouch fun _ _ => True := by
  intro b pre blk post k s c n hwin _ _ _ _
  refine ⟨(), blk, ?_, hwin.ok blk (by simp), rfl, rfl, trivial⟩
  rw [seekTouch, ← hwin.list]

theorem fill_serves (B : Nat) (v : UInt8) : Serves B (fillTouch v) fun _ _ => True := by
  intro b pre blk post k s c n hwin hpos hc hfit _
  obtain ⟨blk', hstore, hok, hsize, hdata⟩ :=
    hwin.store (List.replicate c v) (by simpa using hpos) (by simpa using hfit)
  exact ⟨(), blk', by simp only [fillTouch, hstore, ok_bind], hok, hsize, hdata, trivial⟩

theorem write_serves (B : Nat) : Serves B writeTouch fun n src => n ≤ src.length := by
  intro b pre blk post k src c n hwin hpos hc hfit hgood
  have hload : PktBuffer.load src 0 c = .ok (slice src 0 c) := if_pos (by omega)
  have hlen : (slice src 0 c).length = c := length_slice_of_le (by omega)
  obtain ⟨blk', hstore, hok, hsize, hdata⟩ := hwin.store (slice src 0 c) (by omega) (by omega)
  refine ⟨src.drop c, blk', ?_, hok, hsize, hdata, ?_⟩
  · simp only [writeTouch, hload, hstore, ok_bind]
  · change n - c ≤ (src.drop c).length
    rw [List.length_drop]
    omega

theorem read_serves (B : Nat) : Serves B readTouch fun n s => s.1 + n ≤ s.2.length := by
  intro b pre blk post k s c n hwin hpos hc hfit hgood
  obtain ⟨bytes, hload, hlen⟩ := hwin.load hfit
  have hstore : PktBuffer.store s.2 s.1 bytes = .ok (splice s.2 s.1 bytes) := if_pos (by omega)
  refine ⟨(s.1 + c, splice s.2 s.1 bytes), blk, ?_, hwin.ok blk (by simp), rfl, rfl, ?_⟩
  · simp only [readTouch, hload, hstore, ok_bind]
    rw [← hwin.list]
  · change s.1 + c + (n - c) ≤ (splice s.2 s.1 bytes).length
    rw [length_splice (by omega)]
    omega

end TinyTcp.Pkt.PktBuffer
