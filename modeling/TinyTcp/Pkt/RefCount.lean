/-
TinyTcp.Pkt.RefCount — the holders of one buffer and its reference count.

`Shared` is a buffer out of the pool together with the numbers of `add_ref`
and `free` calls made on it so far. `next` performs one more call. The
count has to be one more than the references added and not given up;
`alloc` writes `m_ref = 1`, whoever calls it, so the other operations are
looked at without any invariant of the layout: `perform_frame` says what
each of them does to the count and to the pool of buffers.

`Counted` is what a call should do with the count and with the pools, and
`Guarded` the condition in the state before it. `counted_iff_guarded` is
the run theorem, and `reference_lost` a run with a second reference that a
growing `resize` forgets.
-/
import TinyTcp.Lib.Run
import TinyTcp.Pkt.Fixed
import TinyTcp.Pkt.Keeps

namespace TinyTcp.Pkt

open TinyTcp.Lib

/-! ## What the operations do to the count -/

namespace PktBuffer

variable {m m' : PktManager} {b b' : PktBuffer} {n : Nat} {e : NetErr}

/-- `alloc` sets the count, whether it gets its blocks or not, and takes back what it
added to the capacity if it does not. -/
theorem alloc_fixed {f ins ok : Bool} (h : alloc m b n f ins = .ok (ok, m', b')) :
    m'.pktBuf = m.pktBuf ∧
      b'.fixed = (if ok then add32 b.capacity n else sub32 (add32 b.capacity n) n, 1) := by
  simp only [alloc, bind_eq_ok] at h
  obtain ⟨⟨got, blks, free⟩, -, h⟩ := h
  cases got with
  | false =>
    cases h
    exact ⟨rfl, rfl⟩
  | true =>
    simp only [Bool.not_true, Bool.false_eq_true, if_false, bind_eq_ok] at h
    obtain ⟨b₁, hreset, heq⟩ := h
    cases heq
    refine ⟨rfl, (resetAccess_fixed hreset).trans ?_⟩
    have hfront : ∀ (ptrs : List BlkPtr) (b : PktBuffer),
        (ptrs.foldl pushFront b).fixed = b.fixed := by
      intro ptrs b
      obtain ⟨cur, heq⟩ := foldl_pushFront_list ptrs b
      rw [heq]
      rfl
    simp only [foldl_pushBack_list]
    split
    · split
      · exact hfront _ _
      · exact hfront _ _
    · split
      · rfl
      · rfl

theorem alloc_frame {f ins ok : Bool} (h : alloc m b n f ins = .ok (ok, m', b')) :
    m'.pktBuf = m.pktBuf ∧ b'.ref = 1 := by
  obtain ⟨hpool, hfixed⟩ := alloc_fixed h
  exact ⟨hpool, congrArg Prod.snd hfixed⟩

/-- `alloc_header` comes to `alloc`. -/
def HeaderAllocates (b : PktBuffer) (size : Nat) (isCont : Bool) : Prop :=
  b.blkList ≠ [] ∧ b.frontSlack < size ∧ isCont = false

/-- `resize` comes to `alloc`. -/
def ResizeAllocates (m : PktManager) (b : PktBuffer) (size : Nat) : Prop :=
  size ≠ b.capacity ∧ (b.capacity = 0 ∨ (b.capacity < size ∧ b.backSlack m.blkSize < size))

instance (b : PktBuffer) (size : Nat) (isCont : Bool) :
    Decidable (HeaderAllocates b size isCont) :=
  inferInstanceAs (Decidable (_ ∧ _ ∧ _))

instance (m : PktManager) (b : PktBuffer) (size : Nat) : Decidable (ResizeAllocates m b size) :=
  inferInstanceAs (Decidable (_ ∧ (_ ∨ (_ ∧ _))))

/-- A call that goes through `alloc` and hands on its outcome. -/
theorem alloc_then_frame {f ins : Bool} {eok eerr : NetErr}
    (h : (do
      let (ok, m, b) ← alloc m b n f ins
      if ok then .ok (eok, m, b) else .ok (eerr, m, b)) = .ok (e, m', b')) :
    m'.pktBuf = m.pktBuf ∧ b'.ref = 1 := by
  simp only [bind_eq_ok] at h
  obtain ⟨⟨ok, m₁, b₁⟩, halloc, h⟩ := h
  have hframe := alloc_frame halloc
  split at h
  · cases h
    exact hframe
  · cases h
    exact hframe

theorem getPktblock_frame {ptr : BlkPtr} (h : m.getPktblock = .ok (ptr, m')) :
    m'.pktBuf = m.pktBuf := by
  unfold PktManager.getPktblock at h
  split at h
  · cases h
    rfl
  · cases h
  · cases h
    rfl

theorem allocHeader_frame {isCont : Bool} (h : allocHeader m b n isCont = .ok (e, m', b')) :
    m'.pktBuf = m.pktBuf ∧ b'.ref = if HeaderAllocates b n isCont then 1 else b.ref := by
  unfold allocHeader at h
  split at h
  · rename_i hlist
    cases h
    rw [if_neg (fun ha => ha.1 hlist)]
    exact ⟨rfl, rfl⟩
  · cases h
  · rename_i first rest hlist
    have hslack : b.frontSlack = first.data := by rw [frontSlack, hlist]
    dsimp only at h
    split at h
    · rename_i hfits
      cases h
      rw [if_neg (fun ha => by have := ha.2.1; omega)]
      exact ⟨rfl, rfl⟩
    · rename_i hfits
      cases isCont with
      | true =>
        rw [if_neg (fun ha => Bool.false_ne_true ha.2.2.symm)]
        simp only [if_true] at h
        split at h
        · cases h
          exact ⟨rfl, rfl⟩
        · simp only [bind_eq_ok] at h
          obtain ⟨⟨ptr, m₁⟩, hget, h⟩ := h
          have hframe := getPktblock_frame hget
          cases ptr with
          | none =>
            cases h
            exact ⟨hframe, rfl⟩
          | some blk =>
            cases h
            exact ⟨hframe, rfl⟩
      | false =>
        have hcomes : HeaderAllocates b n false := ⟨by rw [hlist]; simp, by omega, rfl⟩
        rw [if_pos hcomes]
        exact alloc_then_frame h

theorem removeHeader_frame (h : removeHeader m b n = .ok (e, m', b')) :
    m'.pktBuf = m.pktBuf ∧ b'.ref = b.ref := by
  unfold removeHeader at h
  split at h
  · cases h
  · simp only [bind_eq_ok] at h
    obtain ⟨⟨blks, capacity, gone⟩, -, heq⟩ := h
    cases heq
    exact ⟨rfl, rfl⟩

theorem dropLoop_frame (blks : List BlkPtr) {capacity capacity' : Nat}
    (h : dropLoop m blks capacity = .ok (m', capacity')) : m'.pktBuf = m.pktBuf := by
  induction blks generalizing m capacity with
  | nil =>
    cases h
    rfl
  | cons ptr blks ih =>
    cases ptr with
    | none => cases h
    | some blk =>
      cases blks with
      | nil => cases h
      | cons next blks =>
        have hrest := ih h
        exact hrest

theorem splitLast_getLast (blks : List BlkPtr) {init : List BlkPtr} {tail : PktBlock}
    (h : splitLast blks = .ok (init, tail)) : blks.getLast? = some (some tail) := by
  induction blks generalizing init with
  | nil => cases h
  | cons ptr blks ih =>
    cases blks with
    | nil =>
      cases ptr with
      | none => cases h
      | some blk =>
        cases h
        rfl
    | cons ptr' blks =>
      have hstep : splitLast (ptr :: ptr' :: blks) =
          splitLast (ptr' :: blks) >>= fun r => .ok (ptr :: r.1, r.2) := by
        cases ptr with
        | none => rfl
        | some blk => rfl
      simp only [hstep, bind_eq_ok] at h
      obtain ⟨⟨init', blk⟩, hrest, heq⟩ := h
      cases heq
      rw [List.getLast?_cons_cons, ih hrest]

theorem resize_frame {self : BufId} (hn : 1 ≤ n) (h : resize m self b n = .ok (e, m', b')) :
    m'.pktBuf = m.pktBuf ∧ b'.ref = if ResizeAllocates m b n then 1 else b.ref := by
  unfold resize at h
  split at h
  · rename_i hsame
    cases h
    rw [if_neg (fun ha => ha.1 hsame)]
    exact ⟨rfl, rfl⟩
  rename_i hsame
  split at h
  · rename_i hzero
    rw [if_pos ⟨hsame, .inl hzero⟩]
    exact alloc_then_frame h
  rename_i hzero
  split at h
  · rename_i hgrow
    simp only [bind_eq_ok] at h
    obtain ⟨⟨init, tail⟩, hlast, h⟩ := h
    have hslack : b.backSlack m.blkSize = tail.getLastSize m.blkSize := by
      rw [backSlack, splitLast_getLast b.blkList hlast]
    dsimp only at h
    split at h
    · rename_i hfits
      cases h
      rw [if_neg (fun ha => by rcases ha.2 with hcap | ⟨-, hback⟩ <;> omega)]
      exact ⟨rfl, rfl⟩
    · rename_i hfits
      rw [if_pos ⟨hsame, .inr ⟨hgrow, by omega⟩⟩]
      exact alloc_then_frame h
  · rename_i hshrink
    rw [if_neg (fun ha => by rcases ha.2 with hcap | ⟨hlt, -⟩ <;> omega)]
    rw [if_neg (by omega)] at h
    simp only [bind_eq_ok] at h
    obtain ⟨⟨kept, rest⟩, -, ⟨m₁, capacity⟩, hdrop, ⟨init, tail⟩, -, heq⟩ := h
    cases heq
    exact ⟨dropLoop_frame rest hdrop, rfl⟩

theorem setContHeader_fixed (h : setContHeader m b n = .ok (e, m', b')) :
    m'.pktBuf = m.pktBuf ∧ b'.fixed = b.fixed := by
  unfold setContHeader at h
  split at h
  · cases h
    exact ⟨rfl, rfl⟩
  split at h
  · cases h
    exact ⟨rfl, rfl⟩
  split at h
  · cases h
  · cases h
  · dsimp only at h
    split at h
    · cases h
      exact ⟨rfl, rfl⟩
    · simp only [bind_eq_ok] at h
      obtain ⟨bytes, -, payload, -, ⟨first, rest, gone⟩, -, heq⟩ := h
      cases heq
      exact ⟨rfl, rfl⟩

end PktBuffer

/-! ## The holders' calls -/

/-- The operations on a buffer that are not about its references; `copy` is
from another buffer, and `resize` is to at least one byte. -/
inductive BufOp where
  | alloc (size : Nat) (allocFront insertFront : Bool)
  | allocHeader (size : Nat) (isCont : Bool)
  | removeHeader (size : Nat)
  | resize (size : { n : Nat // 1 ≤ n })
  | setContHeader (size : Nat)
  | seek (offset : Nat)
  | read (dest : Option (List UInt8)) (size : Nat)
  | write (src : Option (List UInt8)) (size : Nat)
  | fill (v : UInt8) (size : Nat)
  | copy (src : PktBuffer) (size : Nat)
  deriving DecidableEq

/-- A call of a holder of the buffer. -/
inductive Call where
  | addRef
  | free
  | op (o : BufOp)
  deriving DecidableEq

namespace BufOp

variable {m m' : PktManager} {b b' : PktBuffer}

open PktBuffer in
/-- The manager and the buffer after the operation, whatever it returns. -/
def perform (self : BufId) (m : PktManager) (b : PktBuffer) :
    BufOp → Except Fault (PktManager × PktBuffer)
  | .alloc size allocFront insertFront => do
      let (_, m, b) ← PktBuffer.alloc m b size allocFront insertFront
      .ok (m, b)
  | .allocHeader size isCont => do
      let (_, m, b) ← PktBuffer.allocHeader m b size isCont
      .ok (m, b)
  | .removeHeader size => do
      let (_, m, b) ← PktBuffer.removeHeader m b size
      .ok (m, b)
  | .resize size => do
      let (_, m, b) ← PktBuffer.resize m self b size
      .ok (m, b)
  | .setContHeader size => do
      let (_, m, b) ← PktBuffer.setContHeader m b size
      .ok (m, b)
  | .seek offset => do
      let (_, b) ← b.seek offset
      .ok (m, b)
  | .read dest size => do
      let (_, _, b) ← b.read dest size
      .ok (m, b)
  | .write src size => do
      let (_, b) ← b.write src size
      .ok (m, b)
  | .fill v size => do
      let (_, b) ← b.fill v size
      .ok (m, b)
  | .copy src size => do
      let (_, b, _) ← b.copy src size
      .ok (m, b)

/-- The operation comes to `alloc`. -/
def Allocates (m : PktManager) (b : PktBuffer) : BufOp → Prop
  | .alloc .. => True
  | .allocHeader size isCont => b.HeaderAllocates size isCont
  | .resize size => PktBuffer.ResizeAllocates m b size
  | _ => False

instance (m : PktManager) (b : PktBuffer) : ∀ o : BufOp, Decidable (o.Allocates m b)
  | .alloc .. => isTrue trivial
  | .allocHeader .. => inferInstanceAs (Decidable (PktBuffer.HeaderAllocates ..))
  | .resize .. => inferInstanceAs (Decidable (PktBuffer.ResizeAllocates ..))
  | .removeHeader .. | .setContHeader .. | .seek .. | .read .. | .write .. | .fill .. | .copy .. =>
      isFalse id

/-- The pool of buffers stays as it is; so does the count, but for `alloc`. -/
theorem perform_frame {self : BufId} {o : BufOp} (h : o.perform self m b = .ok (m', b')) :
    m'.pktBuf = m.pktBuf ∧ b'.ref = if o.Allocates m b then 1 else b.ref := by
  cases o with
  | alloc size f ins =>
    simp only [perform, bind_eq_ok] at h
    obtain ⟨⟨ok, m₁, b₁⟩, halloc, heq⟩ := h
    cases heq
    exact PktBuffer.alloc_frame halloc
  | allocHeader size isCont =>
    simp only [perform, bind_eq_ok] at h
    obtain ⟨⟨e, m₁, b₁⟩, hheader, heq⟩ := h
    cases heq
    exact PktBuffer.allocHeader_frame hheader
  | removeHeader size =>
    simp only [perform, bind_eq_ok] at h
    obtain ⟨⟨e, m₁, b₁⟩, hremove, heq⟩ := h
    cases heq
    exact PktBuffer.removeHeader_frame hremove
  | resize size =>
    simp only [perform, bind_eq_ok] at h
    obtain ⟨⟨e, m₁, b₁⟩, hresize, heq⟩ := h
    cases heq
    exact PktBuffer.resize_frame size.property hresize
  | setContHeader size =>
    simp only [perform, bind_eq_ok] at h
    obtain ⟨⟨e, m₁, b₁⟩, hcont, heq⟩ := h
    cases heq
    obtain ⟨hpool, hfixed⟩ := PktBuffer.setContHeader_fixed hcont
    exact ⟨hpool, congrArg Prod.snd hfixed⟩
  | seek offset =>
    simp only [perform, bind_eq_ok] at h
    obtain ⟨⟨e, b₁⟩, hseek, heq⟩ := h
    cases heq
    exact ⟨rfl, congrArg Prod.snd (PktBuffer.seek_fixed hseek)⟩
  | read dest size =>
    simp only [perform, bind_eq_ok] at h
    obtain ⟨⟨e, dest', b₁⟩, hread, heq⟩ := h
    cases heq
    exact ⟨rfl, congrArg Prod.snd (PktBuffer.read_fixed hread)⟩
  | write src size =>
    simp only [perform, bind_eq_ok] at h
    obtain ⟨⟨e, b₁⟩, hwrite, heq⟩ := h
    cases heq
    exact ⟨rfl, congrArg Prod.snd (PktBuffer.write_fixed hwrite)⟩
  | fill v size =>
    simp only [perform, bind_eq_ok] at h
    obtain ⟨⟨e, b₁⟩, hfill, heq⟩ := h
    cases heq
    exact ⟨rfl, congrArg Prod.snd (PktBuffer.fill_fixed hfill)⟩
  | copy src size =>
    simp only [perform, bind_eq_ok] at h
    obtain ⟨⟨e, b₁, src₁⟩, hcopy, heq⟩ := h
    cases heq
    exact ⟨rfl, congrArg Prod.snd (PktBuffer.copy_fixed hcopy)⟩

end BufOp

/-! ## Runs of calls -/

/-- `get_pktbuffer`: an address, and the pools without it. The object there is `reset`. -/
def PktManager.getPktbuffer (m : PktManager) : Option (BufId × PktManager) :=
  match m.pktBuf.pop with
  | none => none
  | some (self, pool) => some (self, { m with pktBuf := pool })

/-- A buffer out of the pool, and how often `add_ref` and `free` were called on it. -/
structure Shared where
  mgr : PktManager
  buf : PktBuffer
  adds : Nat
  frees : Nat
  deriving DecidableEq

namespace Shared

/-- The buffer `b` as it comes from `get_pktbuffer`, with the pools `m`. -/
def obtained (m : PktManager) (b : PktBuffer) : Shared where
  mgr := m
  buf := b.reset
  adds := 0
  frees := 0

/-- A call of a holder. There is none when an operation faults, and none
when all references have been given up. -/
def next (self : BufId) (s : Shared) (c : Call) : Option Shared :=
  if s.adds < s.frees then none
  else
    match c with
    | .addRef => some { s with buf := s.buf.addRef, adds := s.adds + 1 }
    | .free =>
        let (m, b) := PktBuffer.free s.mgr self s.buf
        some { s with mgr := m, buf := b, frees := s.frees + 1 }
    | .op o =>
        match o.perform self s.mgr s.buf with
        | .ok (m, b) => some { s with mgr := m, buf := b }
        | .error _ => none

/-! ## Right and guarded calls -/

/-- The number of frees becomes one plus the number of add_refs. -/
def IsLast (s : Shared) (c : Call) : Prop := c = .free ∧ s.frees + 1 = 1 + s.adds

instance (s : Shared) (c : Call) : Decidable (s.IsLast c) := inferInstanceAs (Decidable (_ ∧ _))

/-- The buffer and its blocks went to the pools. -/
def Returned (self : BufId) (s s' : Shared) : Prop :=
  s'.mgr.pktBuf.items = s.mgr.pktBuf.items ++ [self] ∧
    s'.mgr.pktBlk.items = s.mgr.pktBlk.items ++ s.buf.blkList ∧ s'.buf.blkList = []

instance (self : BufId) (s s' : Shared) : Decidable (Returned self s s') :=
  inferInstanceAs (Decidable (_ ∧ _ ∧ _))

/-- The buffer did not go to its pool, and a `free` left the blocks where they were. -/
def Remains (s : Shared) (c : Call) (s' : Shared) : Prop :=
  s'.mgr.pktBuf.items = s.mgr.pktBuf.items ∧
    (c = .free → s'.mgr.pktBlk.items = s.mgr.pktBlk.items ∧ s'.buf.blkList = s.buf.blkList)

instance (s : Shared) (c : Call) (s' : Shared) : Decidable (Remains s c s') :=
  inferInstanceAs (Decidable (_ ∧ (_ → _)))

/-- The count after a call that counts right. -/
def count (c : Call) (ref : UInt32) : UInt32 :=
  match c with
  | .addRef => ref + 1
  | .free => ref - 1
  | .op _ => ref

/-- The call counts right, and returns the buffer exactly if it is the last `free`. -/
def Counted (self : BufId) (s : Shared) (c : Call) : Prop :=
  ∀ s' ∈ s.next self c, s'.buf.ref = count c s.buf.ref ∧
    if s.IsLast c then Returned self s s' else Remains s c s'

instance (self : BufId) (s : Shared) (c : Call) : Decidable (Counted self s c) :=
  inferInstanceAs (Decidable (∀ s' ∈ _, _))

/-- An operation comes to `alloc` only with `m_ref = 1`. A `free` with
`m_ref = 1` finds no other reference (`2 ^ 32` of them have the count wrap),
and room for the blocks in their pool. -/
def Guarded (s : Shared) : Call → Prop
  | .addRef => True
  | .free => s.buf.ref = 1 → s.frees = s.adds ∧
      s.buf.blkList.length ≤ s.mgr.pktBlk.cap - s.mgr.pktBlk.items.length
  | .op o => o.Allocates s.mgr s.buf → s.buf.ref = 1

instance (s : Shared) : ∀ c : Call, Decidable (Guarded s c)
  | .addRef => isTrue trivial
  | .free => inferInstanceAs (Decidable (_ → (_ ∧ _)))
  | .op _ => inferInstanceAs (Decidable (_ → _))

variable {self : BufId} {s s' t : Shared} {c : Call}

/-- The count is one more than the references added and not given up, and a
buffer with references is not in its pool. -/
structure Inv (s : Shared) : Prop where
  ref : s.buf.ref = 1 + UInt32.ofNat s.adds - UInt32.ofNat s.frees
  room : s.frees ≤ s.adds → s.mgr.pktBuf.items.length < s.mgr.pktBuf.cap

theorem next_addRef (h : s.next self .addRef = some s') :
    s.frees ≤ s.adds ∧ s' = { s with buf := s.buf.addRef, adds := s.adds + 1 } := by
  unfold next at h
  split at h
  · cases h
  · rename_i hheld
    cases h
    exact ⟨by omega, rfl⟩

theorem next_op {o : BufOp} (h : s.next self (.op o) = some s') :
    ∃ m b, o.perform self s.mgr s.buf = .ok (m, b) ∧ s' = { s with mgr := m, buf := b } := by
  simp only [next] at h
  split at h
  · cases h
  · split at h
    · rename_i m b hperform
      cases h
      exact ⟨m, b, hperform, rfl⟩
    · cases h

/-- The last reference is given up. -/
theorem next_free_one (h : s.next self .free = some s') (hone : s.buf.ref = 1) :
    s.frees ≤ s.adds ∧ s' = { s with
      mgr := (s.mgr.releaseAll s.buf.blkList).releasePktbuffer self
      buf := { s.buf with ref := 0, blkList := [], curBlk := s.buf.curBlk.lost, capacity := 0 }
      frees := s.frees + 1 } := by
  have hzero : s.buf.ref - 1 = 0 := by rw [hone]; rfl
  unfold next at h
  split at h
  · cases h
  · rename_i hheld
    simp only [PktBuffer.free, hzero, if_true, Option.some.injEq] at h
    exact ⟨by omega, h.symm⟩

theorem next_free_more (h : s.next self .free = some s') (hmore : s.buf.ref ≠ 1) :
    s.frees ≤ s.adds ∧
      s' = { s with buf := { s.buf with ref := s.buf.ref - 1 }, frees := s.frees + 1 } := by
  have hzero : s.buf.ref - 1 ≠ 0 := by
    intro hzero
    apply hmore
    grind
  unfold next at h
  split at h
  · cases h
  · rename_i hheld
    simp only [PktBuffer.free, if_neg hzero, Option.some.injEq] at h
    exact ⟨by omega, h.symm⟩

theorem counted_iff (h : s.next self c = some s') :
    Counted self s c ↔ s'.buf.ref = count c s.buf.ref ∧
      if s.IsLast c then Returned self s s' else Remains s c s' := by
  have hmem : ∀ s₁, s₁ ∈ s.next self c ↔ s₁ = s' := by
    intro s₁
    rw [h, Option.mem_def, Option.some.injEq, eq_comm]
  simp only [Counted, hmem, forall_eq]

theorem addRef_step (h : Inv s) (hnext : s.next self .addRef = some s') :
    (Counted self s .addRef ↔ Guarded s .addRef) ∧ (Guarded s .addRef → Inv s') := by
  rw [counted_iff hnext]
  obtain ⟨hle, rfl⟩ := next_addRef hnext
  have hlast : ¬ s.IsLast .addRef := by simp [IsLast]
  constructor
  · rw [if_neg hlast]
    simp [count, PktBuffer.addRef, Remains, Guarded]
  · intro _
    refine ⟨?_, fun _ => h.room hle⟩
    have href := h.ref
    simp only [PktBuffer.addRef, href, UInt32.ofNat_add]
    grind

theorem op_step {o : BufOp} (h : Inv s) (hnext : s.next self (.op o) = some s') :
    (Counted self s (.op o) ↔ Guarded s (.op o)) ∧ (Guarded s (.op o) → Inv s') := by
  rw [counted_iff hnext]
  obtain ⟨m, b, hperform, rfl⟩ := next_op hnext
  obtain ⟨hpool, href⟩ := BufOp.perform_frame hperform
  have hlast : ¬ s.IsLast (.op o) := by simp [IsLast]
  have hkeeps : b.ref = s.buf.ref ↔ Guarded s (.op o) := by
    rw [href, Guarded]
    by_cases halloc : o.Allocates s.mgr s.buf
    · simp [halloc, eq_comm]
    · simp [halloc]
  constructor
  · rw [if_neg hlast]
    simp [count, Remains, hpool, hkeeps]
  · intro hguard
    refine ⟨?_, fun hle => ?_⟩
    · change b.ref = _
      rw [hkeeps.mpr hguard, h.ref]
    · change m.pktBuf.items.length < m.pktBuf.cap
      rw [hpool]
      exact h.room hle

/-- What `free` does with the last reference, as the code counts. -/
theorem free_one_step (h : Inv s) (hnext : s.next self .free = some s') (hone : s.buf.ref = 1) :
    (Counted self s .free ↔ Guarded s .free) ∧ (Guarded s .free → Inv s') := by
  rw [counted_iff hnext]
  obtain ⟨hle, rfl⟩ := next_free_one hnext hone
  have hbuf : ((s.mgr.releaseAll s.buf.blkList).releasePktbuffer self).pktBuf.items =
      s.mgr.pktBuf.items ++ [self] := by
    have hpush := Fifo.push_of_room (h.room hle) self
    exact congrArg (fun r => r.2.items) hpush
  have hblk : ((s.mgr.releaseAll s.buf.blkList).releasePktbuffer self).pktBlk.items =
      s.mgr.pktBlk.items ++ s.buf.blkList ↔
        s.buf.blkList.length ≤ s.mgr.pktBlk.cap - s.mgr.pktBlk.items.length :=
    Fifo.items_pushAll_eq_iff
  have hguard : Guarded s .free ↔ s.frees = s.adds ∧
      s.buf.blkList.length ≤ s.mgr.pktBlk.cap - s.mgr.pktBlk.items.length := by
    simp [Guarded, hone]
  have hlast : s.IsLast .free ↔ s.frees = s.adds := by
    simp only [IsLast, true_and]
    omega
  constructor
  · by_cases heq : s.frees = s.adds
    · rw [if_pos (hlast.mpr heq), hguard]
      simp [count, Returned, hbuf, hblk, hone, heq]
    · rw [if_neg (fun h => heq (hlast.mp h)), hguard]
      simp [Remains, hbuf, heq]
  · intro hg
    have heq := (hguard.mp hg).1
    refine ⟨?_, fun hle' => ?_⟩
    · simp only [heq, UInt32.ofNat_add]
      grind
    · change s.frees + 1 ≤ s.adds at hle'
      omega

/-- What `free` does otherwise. -/
theorem free_more_step (h : Inv s) (hnext : s.next self .free = some s')
    (hmore : s.buf.ref ≠ 1) :
    (Counted self s .free ↔ Guarded s .free) ∧ (Guarded s .free → Inv s') := by
  rw [counted_iff hnext]
  obtain ⟨hle, rfl⟩ := next_free_more hnext hmore
  have hlast : ¬ s.IsLast .free := by
    rintro ⟨-, heq⟩
    apply hmore
    rw [h.ref, show s.frees = s.adds by omega]
    grind
  constructor
  · rw [if_neg hlast]
    simp [count, Remains, Guarded, hmore]
  · intro _
    refine ⟨?_, fun _ => h.room hle⟩
    have href := h.ref
    simp only [href, UInt32.ofNat_add]
    grind

theorem counted_step (h : Inv s) (hnext : s.next self c = some s') :
    (Counted self s c ↔ Guarded s c) ∧ (Guarded s c → Inv s') := by
  cases c with
  | addRef => exact addRef_step h hnext
  | free =>
    by_cases hone : s.buf.ref = 1
    · exact free_one_step h hnext hone
    · exact free_more_step h hnext hone
  | op o => exact op_step h hnext

/-- In every run of calls that return on a buffer from `get_pktbuffer`, every
call counts right exactly if every call is guarded. -/
theorem counted_iff_guarded {m m₀ : PktManager} {b : PktBuffer}
    (hget : m.getPktbuffer = some (self, m₀)) (hcap : m.pktBuf.items.length ≤ m.pktBuf.cap)
    (calls : List Call) (hrun : run (next self) (obtained m₀ b) calls = some t) :
    Along (next self) (Counted self) (obtained m₀ b) calls ↔
      Along (next self) Guarded (obtained m₀ b) calls := by
  have hroom : m₀.pktBuf.items.length < m₀.pktBuf.cap := by
    unfold PktManager.getPktbuffer at hget
    split at hget
    · cases hget
    · rename_i self' pool hpop
      cases hget
      unfold Fifo.pop at hpop
      split at hpop
      · cases hpop
      · rename_i first rest hitems
        cases hpop
        rw [hitems, List.length_cons] at hcap
        exact hcap
  have hinv : Inv (obtained m₀ b) := ⟨by change (1 : UInt32) = 1 + 0 - 0; rfl, fun _ => hroom⟩
  exact along_iff_along (fun s c s' => counted_step) calls _ t hinv hrun

/-- Three blocks of eight bytes and two buffers. -/
def fewPools : PktManager where
  blkSize := 8
  pktBlk := ⟨3, (List.range 3).map fun a => some ⟨a, 0, 0, [9, 9, 9, 9, 9, 9, 9, 9]⟩⟩
  pktBuf := ⟨2, [0, 1]⟩

/-- Buffer 0 taken out of them. -/
def taken : Shared := obtained { fewPools with pktBuf := ⟨2, [1]⟩ } .new

/-- Two holders of a packet that keeps its blocks. -/
def sharedCalls : List Call :=
  [.op (.resize ⟨12, by decide⟩), .op (.write (some [1, 2, 3, 4]) 4), .addRef,
    .op (.removeHeader 2), .free, .op (.seek 1), .op (.fill 7 3), .free]

theorem counted_iff_guarded_two_holders :
    ∃ t, run (next 0) taken sharedCalls = some t ∧ Along (next 0) (Counted 0) taken sharedCalls := by
  obtain ⟨t, hrun⟩ :=
    Option.isSome_iff_exists.mp (show (run (next 0) taken sharedCalls).isSome = true by decide +kernel)
  have hiff := counted_iff_guarded (m := fewPools) (b := .new) rfl (by decide) sharedCalls hrun
  exact ⟨t, hrun, hiff.mpr (by decide +kernel)⟩

/-- A packet of four bytes with two holders grows, and one of them gives it up. -/
def growingCalls : List Call :=
  [.op (.alloc 4 true false), .addRef, .op (.resize ⟨12, by decide⟩), .free]

/-- The packet is back in the pools though one reference is left. -/
theorem reference_lost :
    (run (next 0) taken growingCalls).map
        (fun t => (t.adds, t.frees, t.mgr.pktBuf.items, t.mgr.pktBlk.items.length)) =
      some (1, 1, [1, 0], 3) ∧
    ¬ Along (next 0) (Counted 0) taken growingCalls := by
  constructor
  · decide +kernel
  · decide +kernel

end Shared

end TinyTcp.Pkt
