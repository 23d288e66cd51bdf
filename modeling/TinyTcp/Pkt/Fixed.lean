/-
TinyTcp.Pkt.Fixed — what a call that only reads, writes or moves the
cursor leaves alone.

`fixed` is the capacity and the count of references of a buffer. Every
access keeps them, from any state, well formed or not: the lemmas look at
what a call that returned has done and need no invariant. `read` also
leaves alone what lies behind the bytes it was asked for (`read_behind`).
-/
import TinyTcp.Pkt.Buffer
import Mathlib.Algebra.Group.Nat.Defs

namespace TinyTcp.Pkt

open TinyTcp.Lib

namespace PktBuffer

variable {b b' : PktBuffer} {n : Nat} {e : NetErr}

/-- The members an access does not write. -/
def fixed (b : PktBuffer) : Nat × UInt32 := (b.capacity, b.ref)

theorem resetAccess_fixed (h : b.resetAccess = .ok b') : b'.fixed = b.fixed := by
  unfold resetAccess at h
  split at h
  · cases h
    rfl
  · cases h
  · cases h
    rfl

theorem nextBlk_fixed (h : b.nextBlk = .ok b') : b'.fixed = b.fixed := by
  unfold nextBlk at h
  split at h
  · split at h
    · cases h
      rfl
    · cases h
    · cases h
      rfl
  · cases h
  · cases h

theorem moveForward_fixed (h : b.moveForward n = .ok b') : b'.fixed = b.fixed := by
  simp only [moveForward, bind_eq_ok] at h
  obtain ⟨blk, -, off, -, h⟩ := h
  split at h
  · have hnext := nextBlk_fixed h
    exact hnext
  · cases h
    rfl

theorem storeCur_fixed {xs : List UInt8} (h : b.storeCur xs = .ok b') : b'.fixed = b.fixed := by
  unfold storeCur at h
  split at h
  · cases h
    rfl
  · simp only [bind_eq_ok] at h
    obtain ⟨blk, -, off, -, payload, -, h⟩ := h
    split at h
    · cases h
      rfl
    · cases h
    · cases h

/-- A walk keeps what the cursor's moves and the body of its loop keep. -/
theorem walk_keeps {α σ : Type} {obs : PktBuffer → α}
    {touch : σ → Nat → PktBuffer → Except Fault (σ × PktBuffer)}
    (hmove : ∀ {c : Nat} {b b' : PktBuffer}, b.moveForward c = .ok b' → obs b' = obs b)
    (htouch : ∀ s c b s' b', touch s c b = .ok (s', b') → obs b' = obs b)
    (fuel n : Nat) {s s' : σ} (b : PktBuffer) (h : walk touch fuel n s b = .ok (s', b')) :
    obs b' = obs b := by
  induction fuel generalizing n s b with
  | zero =>
    cases n with
    | zero =>
      cases h
      rfl
    | succ n => cases h
  | succ fuel ih =>
    cases n with
    | zero =>
      cases h
      rfl
    | succ n =>
      simp only [walk, bind_eq_ok] at h
      obtain ⟨remain, -, ⟨s₁, b₁⟩, htouched, b₂, hmoved, h⟩ := h
      rw [ih _ b₂ h, hmove hmoved, htouch _ _ _ _ _ htouched]

/-- `write` keeps what the cursor's moves and stores into a payload keep. -/
theorem write_keeps {α : Type} {obs : PktBuffer → α}
    (hmove : ∀ {c : Nat} {b b' : PktBuffer}, b.moveForward c = .ok b' → obs b' = obs b)
    (hstore : ∀ {xs : List UInt8} {b b' : PktBuffer}, b.storeCur xs = .ok b' → obs b' = obs b)
    {src : Option (List UInt8)} (h : b.write src n = .ok (e, b')) : obs b' = obs b := by
  unfold write at h
  split at h
  · cases h
    rfl
  split at h
  · cases h
    rfl
  split at h
  · cases h
    rfl
  simp only [bind_eq_ok] at h
  obtain ⟨⟨_, b₁⟩, hwalk, h⟩ := h
  cases h
  refine walk_keeps hmove (fun _ _ b₁ _ b₂ htouched => ?_) _ _ _ hwalk
  simp only [bind_eq_ok] at htouched
  obtain ⟨bytes, -, b₃, hstored, heq⟩ := htouched
  cases heq
  exact hstore hstored

theorem walk_fixed {σ : Type} {touch : σ → Nat → PktBuffer → Except Fault (σ × PktBuffer)}
    (htouch : ∀ s c b s' b', touch s c b = .ok (s', b') → b'.fixed = b.fixed)
    (fuel n : Nat) {s s' : σ} (b : PktBuffer) (h : walk touch fuel n s b = .ok (s', b')) :
    b'.fixed = b.fixed := walk_keeps moveForward_fixed htouch fuel n b h

theorem seek_fixed (h : b.seek n = .ok (e, b')) : b'.fixed = b.fixed := by
  have hwalk : ∀ (b₁ : PktBuffer) (fuel k : Nat) {r : Unit × PktBuffer},
      walk (fun (_ : Unit) _ b => .ok ((), b)) fuel k () b₁ = .ok r → r.2.fixed = b₁.fixed :=
    fun b₁ fuel k r hr => walk_fixed (fun _ _ _ _ _ h => by cases h; rfl) fuel k b₁ hr
  unfold seek at h
  split at h
  · cases h
    rfl
  split at h
  · cases h
    rfl
  split at h
  · split at h
    · cases h
    · cases h
    · simp only [ok_bind, bind_eq_ok] at h
      obtain ⟨r, hr, heq⟩ := h
      cases heq
      have hmoved := hwalk _ _ _ hr
      exact hmoved
  · simp only [ok_bind, bind_eq_ok] at h
    obtain ⟨r, hr, heq⟩ := h
    cases heq
    exact hwalk _ _ _ hr

theorem write_fixed {src : Option (List UInt8)} (h : b.write src n = .ok (e, b')) :
    b'.fixed = b.fixed := write_keeps moveForward_fixed storeCur_fixed h

theorem fill_fixed {v : UInt8} (h : b.fill v n = .ok (e, b')) : b'.fixed = b.fixed := by
  unfold fill at h
  split at h
  · cases h
    rfl
  split at h
  · cases h
    rfl
  simp only [bind_eq_ok] at h
  obtain ⟨⟨_, b₁⟩, hwalk, h⟩ := h
  cases h
  refine walk_fixed (fun _ _ b₁ _ b₂ htouched => ?_) _ _ _ hwalk
  simp only [bind_eq_ok] at htouched
  obtain ⟨b₃, hstore, heq⟩ := htouched
  cases heq
  exact storeCur_fixed hstore

theorem read_fixed {dest dest' : Option (List UInt8)} (h : b.read dest n = .ok (e, dest', b')) :
    b'.fixed = b.fixed := by
  unfold read at h
  split at h
  · cases h
    rfl
  split at h
  · cases h
    rfl
  split at h
  · cases h
    rfl
  simp only [bind_eq_ok] at h
  obtain ⟨⟨_, b₁⟩, hwalk, h⟩ := h
  cases h
  refine walk_fixed (fun _ _ b₁ _ b₂ htouched => ?_) _ _ _ hwalk
  simp only [bind_eq_ok] at htouched
  obtain ⟨bytes, -, dest, -, heq⟩ := htouched
  cases heq
  rfl

/-! ## What lies behind the bytes that are read -/

theorem load_length {mem bytes : List UInt8} {off k : Nat} (h : load mem off k = .ok bytes) :
    bytes.length = k := by
  unfold load at h
  split at h
  · rename_i hle
    cases h
    exact length_slice_of_le hle
  · cases h

theorem store_length {mem mem' xs : List UInt8} {off : Nat} (h : store mem off xs = .ok mem') :
    mem'.length = mem.length ∧ off + xs.length ≤ mem.length := by
  unfold store at h
  split at h
  · rename_i hle
    cases h
    exact ⟨length_splice hle, hle⟩
  · cases h

/-- The bytes at the cursor are as many as were asked for. -/
theorem loadCur_length {bytes : List UInt8} (h : b.loadCur n = .ok bytes) : bytes.length = n := by
  unfold loadCur at h
  split at h
  · rename_i hzero
    cases h
    exact hzero.symm
  · simp only [bind_eq_ok] at h
    obtain ⟨blk, -, off, -, h⟩ := h
    exact load_length h

/-- The loop of `read` writes over the next `n` bytes of the caller's memory. -/
theorem walk_read_behind (fuel n : Nat) {s s' : Nat × List UInt8} (b : PktBuffer)
    (h : walk (fun (s : Nat × List UInt8) c b => do
      let bytes ← b.loadCur c
      let dest ← store s.2 s.1 bytes
      .ok ((s.1 + c, dest), b)) fuel n s b = .ok (s', b')) :
    s'.2.length = s.2.length ∧ s'.2.drop (s.1 + n) = s.2.drop (s.1 + n) := by
  induction fuel generalizing n s b with
  | zero =>
    cases n with
    | zero =>
      cases h
      exact ⟨rfl, rfl⟩
    | succ n => cases h
  | succ fuel ih =>
    cases n with
    | zero =>
      cases h
      exact ⟨rfl, rfl⟩
    | succ n =>
      simp only [walk, bind_eq_ok] at h
      obtain ⟨remain, -, ⟨s₁, b₁⟩, ⟨bytes, hload, dest, hstore, heq⟩, b₂, -, h⟩ := h
      cases heq
      have hlen := loadCur_length hload
      unfold store at hstore
      split at hstore
      · rename_i hfits
        cases hstore
        obtain ⟨hlength, hdrop⟩ := ih _ b₂ h
        have hend : s.1 + min (n + 1) remain + (n + 1 - min (n + 1) remain) = s.1 + (n + 1) := by
          omega
        refine ⟨hlength.trans (length_splice hfits), ?_⟩
        rw [hend] at hdrop
        exact hdrop.trans (drop_splice (by omega) (by omega))
      · cases hstore

/-- `read` writes no byte behind the first `n`. -/
theorem read_behind {mem mem' : List UInt8} (h : b.read (some mem) n = .ok (e, some mem', b')) :
    mem'.length = mem.length ∧ mem'.drop n = mem.drop n := by
  unfold read at h
  split at h
  · cases h
  rename_i dest heq
  cases heq
  split at h
  · cases h
    exact ⟨rfl, rfl⟩
  split at h
  · cases h
    exact ⟨rfl, rfl⟩
  simp only [bind_eq_ok] at h
  obtain ⟨⟨⟨off, mem₁⟩, b₁⟩, hwalk, h⟩ := h
  cases h
  have hbehind := walk_read_behind _ _ _ hwalk
  rwa [Nat.zero_add] at hbehind

/-! ## copy -/

theorem copyLoop_fixed (fuel n : Nat) (dest src : PktBuffer) {dest' src' : PktBuffer}
    (h : copyLoop fuel n dest src = .ok (dest', src')) : dest'.fixed = dest.fixed := by
  induction fuel generalizing n dest src with
  | zero =>
    cases n with
    | zero =>
      cases h
      rfl
    | succ n => cases h
  | succ fuel ih =>
    cases n with
    | zero =>
      cases h
      rfl
    | succ n =>
      simp only [copyLoop, bind_eq_ok] at h
      obtain ⟨_, -, _, -, bytes, -, dest₁, hstore, dest₂, hmove, src₁, -, h⟩ := h
      rw [ih _ dest₂ src₁ h, moveForward_fixed hmove, storeCur_fixed hstore]

theorem copy_fixed {src src' : PktBuffer} (h : b.copy src n = .ok (e, b', src')) :
    b'.fixed = b.fixed := by
  unfold copy at h
  split at h
  · cases h
    rfl
  simp only [bind_eq_ok] at h
  obtain ⟨⟨dest, src₁⟩, hloop, h⟩ := h
  cases h
  exact copyLoop_fixed _ _ _ _ hloop

end PktBuffer

end TinyTcp.Pkt
