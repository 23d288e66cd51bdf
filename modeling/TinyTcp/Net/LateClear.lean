/-
TinyTcp.Net.LateClear — `get_pktbuffer`, `alloc` and `free` of
`src/net/pktbuf.cc` on any number of threads.

`free` gives the buffer back to its pool and then sets `m_capacity` to
zero. Between the two another thread may get the buffer, reset it and
allocate blocks for it; then the zero goes into a packet that is not
empty. `intact_iff` says that this, and a packet of 2^32 bytes, are the
only ways in which `m_capacity` stops being the sum of the block sizes.

Each operation of a pool and each assignment to `m_capacity` is a step.
The other fields of a buffer are those of the thread that has it, and are
written along with the step before. A thread that has several buffers
counts as several; nothing here reads the queues.
-/
import TinyTcp.Net.RecvLeak

namespace TinyTcp.Net

open TinyTcp.Lib TinyTcp.Pkt PktBuffer

/-! ## The threads -/

/-- What a thread does next. In `reset` it has a buffer from the pool, in
`has` it is between two calls. In `alloc` the loop still has `left` of
`size` bytes to get and has got `blkList`; in `undo` it failed. -/
inductive UserPc where
  | idle
  | reset (buf : BufId)
  | has (buf : BufId)
  | alloc (buf : BufId) (size left : Nat) (allocFront insertFront : Bool)
      (blkList : List PktBlock)
  | undo (buf : BufId) (size : Nat) (blkList : List PktBlock)
  | free (pc : FreePc)
  deriving DecidableEq, Repr

/-- A call, or the next step of one. -/
inductive UserCall where
  | getPktbuffer
  | alloc (size : Nat) (allocFront insertFront : Bool)
  | free
  | step
  deriving DecidableEq, Repr

/-- The end of `alloc`: the blocks go into `m_blk_list`. -/
def linkBlocks (b : PktBuffer) (allocFront insertFront : Bool) (blkList : List PktBlock) :
    PktBuffer :=
  if insertFront then
    if allocFront then (blkList.map some).foldl pushFront b
    else (blkList.reverse.map some).foldl pushFront b
  else
    if allocFront then (blkList.reverse.map some).foldl pushBack b
    else (blkList.map some).foldl pushBack b

def UserPc.step (s : Stack) : UserPc → Except Fault (Stack × UserPc)
  | .idle => .ok (s, .idle)
  | .reset buf => .ok (s.putPkt s.mgr buf (s.bufs buf).reset, .has buf)
  | .has buf => .ok (s, .has buf)
  | .alloc buf _ 0 allocFront insertFront blkList => do
      let b ← (linkBlocks (s.bufs buf) allocFront insertFront blkList).resetAccess
      .ok (s.putPkt s.mgr buf b, .has buf)
  | .alloc buf size (left + 1) allocFront insertFront blkList => do
      let (ptr, m) ← s.mgr.getPktblock
      match ptr with
      | none => .ok (s.putMgr m, .undo buf size blkList)
      | some blk =>
          let curSize := min (left + 1) m.blkSize
          let blk := { blk with
            size := curSize, data := if allocFront then m.blkSize - curSize else 0 }
          .ok (s.putMgr m,
            .alloc buf size (left + 1 - curSize) allocFront insertFront (blkList ++ [blk]))
  | .undo buf size [] =>
      let b := { s.bufs buf with capacity := sub32 (s.bufs buf).capacity size }
      .ok (s.putPkt s.mgr buf b, .has buf)
  | .undo buf size (blk :: blkList) =>
      .ok (s.putMgr (s.mgr.releasePktblock (some blk)), .undo buf size blkList)
  | .free pc =>
      match pc.step s with
      | (s, some pc) => .ok (s, .free pc)
      | (s, none) => .ok (s, .idle)

/-- A thread gets a buffer when it has none. The size for `alloc` is a `uint32_t`. -/
def UserPc.exec (s : Stack) : UserPc → UserCall → Except Fault (Stack × UserPc)
  | .idle, .getPktbuffer =>
      match s.mgr.pktBuf.pop with
      | none => .ok (s, .idle)
      | some (buf, pool) => .ok (s.putMgr { s.mgr with pktBuf := pool }, .reset buf)
  | .has buf, .alloc size allocFront insertFront =>
      if size < 2 ^ 32 then
        let b := { s.bufs buf with capacity := add32 (s.bufs buf).capacity size, ref := 1 }
        .ok (s.putPkt s.mgr buf b, .alloc buf size size allocFront insertFront [])
      else .ok (s, .has buf)
  | .has buf, .free => .ok (s, .free (.enter buf))
  | pc, .step => pc.step s
  | pc, _ => .ok (s, pc)

structure Users extends Stack where
  threads : List UserPc

/-- The number of a thread, and what it does. -/
abbrev UserAct := Nat × UserCall

def Users.exec (s : Users) (a : UserAct) : Except Fault Users :=
  match s.threads[a.1]? with
  | none => .ok s
  | some pc => do
      let (stack, pc) ← pc.exec s.toStack a.2
      .ok { s with toStack := stack, threads := s.threads.set a.1 pc }

/-- A fault ends the run. -/
def Users.next (s : Users) (a : UserAct) : Option Users := (s.exec a).toOption

/-! ## What is claimed, and when it holds -/

/-- The sum of the sizes of the blocks. -/
def blkBytes (b : PktBuffer) : Nat := sizes b.blkList.reduceOption

/-- The buffer that the thread has obtained and reset, and not begun to free. -/
def UserPc.holds : UserPc → Option BufId
  | .has buf => some buf
  | .alloc buf _ _ _ _ _ => some buf
  | .undo buf _ _ => some buf
  | _ => none

/-- Between two calls of the thread `m_capacity` is the sum of the block
sizes. During a call of `alloc` it is what the thread itself has set it to. -/
def UserPc.Agrees (bufs : BufId → PktBuffer) : UserPc → Prop
  | .has buf => (bufs buf).capacity = blkBytes (bufs buf)
  | .alloc buf size _ _ _ _ => (bufs buf).capacity = add32 (blkBytes (bufs buf)) size
  | .undo buf size _ => (bufs buf).capacity = add32 (blkBytes (bufs buf)) size
  | _ => True

def Users.Intact (s : Users) : Prop := ∀ pc ∈ s.threads, pc.Agrees s.bufs

/-- The late `m_capacity = 0` does not go into a buffer that a thread
holds, unless it is zero there; and the blocks of `alloc` do not make the
packet too long for `m_capacity`. -/
def UserPc.Spares (s : Stack) (threads : List UserPc) : UserPc → UserCall → Prop
  | .free (.clear buf), .step =>
      ∀ pc ∈ threads, pc.holds = some buf → (s.bufs buf).capacity = 0
  | .alloc buf size 0 _ _ _, .step => blkBytes (s.bufs buf) + size < 2 ^ 32
  | _, _ => True

def Users.Spares (s : Users) (a : UserAct) : Prop :=
  ∀ pc ∈ s.threads[a.1]?, pc.Spares s.toStack s.threads a.2

instance (s : Stack) (threads : List UserPc) (pc : UserPc) (call : UserCall) :
    Decidable (pc.Spares s threads call) := by
  unfold UserPc.Spares
  split
  · infer_instance
  · infer_instance
  · infer_instance

instance (s : Users) (a : UserAct) : Decidable (s.Spares a) :=
  inferInstanceAs (Decidable (∀ pc ∈ s.threads[a.1]?, pc.Spares s.toStack s.threads a.2))

/-! ## What the threads have -/

def FreePc.buf : FreePc → BufId
  | .enter buf => buf
  | .blocks buf => buf
  | .clear buf => buf

def UserPc.claims : UserPc → BufClaims
  | .idle => 0
  | .reset buf => {(buf, .blank)}
  | .has buf => {(buf, .parcel)}
  | .alloc buf _ _ _ _ _ => {(buf, .boxes)}
  | .undo buf _ _ => {(buf, .boxes)}
  | .free pc => pc.claims

def UserPc.loose : UserPc → Multiset Nat
  | .alloc _ _ _ _ _ blkList => addrs blkList
  | .undo _ _ blkList => addrs blkList
  | _ => 0

/-- A packet to which `alloc` is adding blocks. -/
structure Grows (B : Nat) (b : PktBuffer) (blks : List PktBlock) : Prop where
  list : b.blkList = blks.map some
  ok : ∀ blk ∈ blks, blk.Ok B
  lt : sizes blks < 2 ^ 32
  ref : b.ref = 1

/-- The buffer and the local variables are as the loops of `alloc` leave them. -/
def UserPc.Fits (B : Nat) (bufs : BufId → PktBuffer) : UserPc → Prop
  | .alloc buf size left _ _ blkList => (∃ blks, Grows B (bufs buf) blks) ∧
      (∀ blk ∈ blkList, blk.Ok B) ∧ sizes blkList + left = size
  | .undo buf _ blkList => (∃ blks, Grows B (bufs buf) blks) ∧
      ∀ blk ∈ blkList, blk.payload.length = B
  | _ => True

/-- Everything is accounted for, and every thread has what it relies on. -/
structure Inv (B : Nat) (live : Finset BufId) (total : Multiset Nat) (s : Stack)
    (threads : List UserPc) : Prop where
  books : Books B live total s (threads.map UserPc.claims).sum (threads.map UserPc.loose).sum
  fits : ∀ pc ∈ threads, pc.Fits B s.bufs

variable {B : Nat} {live : Finset BufId} {total : Multiset Nat} {s s' : Stack}
  {threads threads' others : List UserPc} {pc pc' : UserPc} {bufs bufs' : BufId → PktBuffer}
  {buf x : BufId} {t : Stage} {loose : Multiset Nat}

theorem blkBytes_of_list {b : PktBuffer} {blks : List PktBlock} (h : b.blkList = blks.map some) :
    blkBytes b = sizes blks := by
  rw [blkBytes, h, reduceOption_map_some]

/-- It does not matter which thread is which. -/
theorem Inv.perm (h : Inv B live total s threads) (hp : threads.Perm threads') :
    Inv B live total s threads' := by
  refine ⟨?_, fun pc hpc => h.fits pc (hp.mem_iff.mpr hpc)⟩
  rw [← (hp.map _).sum_eq, ← (hp.map _).sum_eq]
  exact h.books

theorem Inv.cons (h : Inv B live total s (pc :: others)) :
    Books B live total s (pc.claims + (others.map UserPc.claims).sum)
      (pc.loose + (others.map UserPc.loose).sum) := by
  have hbooks := h.books
  rw [List.map_cons, List.map_cons, List.sum_cons, List.sum_cons] at hbooks
  exact hbooks

/-! ## What a thread does to the others -/

/-- What the other threads hold is as it was. -/
def Untouched (s s' : Stack) (others : List UserPc) : Prop :=
  ∀ pc ∈ others, ∀ buf, pc.holds = some buf → s'.bufs buf = s.bufs buf

theorem UserPc.fits_congr (h : ∀ buf, pc.holds = some buf → bufs' buf = bufs buf) :
    pc.Fits B bufs' ↔ pc.Fits B bufs := by
  cases pc with
  | alloc buf size left allocFront insertFront blkList => rw [UserPc.Fits, UserPc.Fits, h buf rfl]
  | undo buf size blkList => rw [UserPc.Fits, UserPc.Fits, h buf rfl]
  | _ => exact Iff.rfl

theorem UserPc.agrees_congr (h : ∀ buf, pc.holds = some buf → bufs' buf = bufs buf) :
    pc.Agrees bufs' ↔ pc.Agrees bufs := by
  cases pc with
  | has buf => rw [UserPc.Agrees, UserPc.Agrees, h buf rfl]
  | alloc buf size left allocFront insertFront blkList =>
    rw [UserPc.Agrees, UserPc.Agrees, h buf rfl]
  | undo buf size blkList => rw [UserPc.Agrees, UserPc.Agrees, h buf rfl]
  | _ => exact Iff.rfl

theorem UserPc.claims_of_holds (h : pc.holds = some buf) : ∃ u, (buf, u) ∈ pc.claims := by
  cases pc with
  | has buf' =>
    rw [← Option.some.inj h]
    exact ⟨_, Multiset.mem_singleton_self _⟩
  | alloc buf' size left allocFront insertFront blkList =>
    rw [← Option.some.inj h]
    exact ⟨_, Multiset.mem_singleton_self _⟩
  | undo buf' size blkList =>
    rw [← Option.some.inj h]
    exact ⟨_, Multiset.mem_singleton_self _⟩
  | _ => cases h

theorem mem_claims_sum {c : BufId × Stage} (hpc : pc ∈ others) (hc : c ∈ pc.claims) :
    c ∈ (others.map UserPc.claims).sum := by
  induction others with
  | nil => cases hpc
  | cons q others ih =>
    rw [List.map_cons, List.sum_cons, Multiset.mem_add]
    rcases List.mem_cons.mp hpc with rfl | hpc
    · exact Or.inl hc
    · exact Or.inr (ih hpc)

/-- A write to one's own buffer touches nothing that others hold. -/
theorem untouched_of_books
    (h : Books B live total s ((x, t) ::ₘ (others.map UserPc.claims).sum) loose)
    (hframe : ∀ y, y ≠ x → s'.bufs y = s.bufs y) : Untouched s s' others := by
  intro pc hpc buf hbuf
  obtain ⟨u, hu⟩ := UserPc.claims_of_holds hbuf
  refine hframe buf ?_
  exact h.held_cons.ne_of_mem live.nodup (c := (buf, u))
    (Multiset.mem_add.mpr (Or.inr (mem_claims_sum hpc hu)))

/-- A thread has moved, and has not touched what the others hold. -/
structure Moved (B : Nat) (live : Finset BufId) (total : Multiset Nat) (s s' : Stack)
    (pc' : UserPc) (others : List UserPc) : Prop where
  books : Books B live total s' (pc'.claims + (others.map UserPc.claims).sum)
    (pc'.loose + (others.map UserPc.loose).sum)
  fits : pc'.Fits B s'.bufs
  agrees : pc'.Agrees s'.bufs
  untouched : Untouched s s' others

theorem Moved.inv (h : Moved B live total s s' pc' others)
    (hfits : ∀ pc ∈ others, pc.Fits B s.bufs) : Inv B live total s' (pc' :: others) := by
  refine ⟨?_, ?_⟩
  · rw [List.map_cons, List.map_cons, List.sum_cons, List.sum_cons]
    exact h.books
  · intro pc hpc
    rcases List.mem_cons.mp hpc with rfl | hpc
    · exact h.fits
    · exact (UserPc.fits_congr (h.untouched pc hpc)).mpr (hfits pc hpc)

theorem Moved.intact (h : Moved B live total s s' pc' others)
    (hagrees : ∀ pc ∈ others, pc.Agrees s.bufs) : ∀ pc ∈ pc' :: others, pc.Agrees s'.bufs := by
  intro pc hpc
  rcases List.mem_cons.mp hpc with rfl | hpc
  · exact h.agrees
  · exact (UserPc.agrees_congr (h.untouched pc hpc)).mpr (hagrees pc hpc)

/-! ## get_pktbuffer -/

section Steps

variable {rest : Multiset Nat}

/-- A step that writes to no buffer. -/
theorem Moved.of_books (pc' : UserPc) {has : BufClaims} {out : Multiset Nat}
    (h : Books B live total s' has out)
    (hclaims : pc'.claims + (others.map UserPc.claims).sum = has)
    (hloose : pc'.loose + (others.map UserPc.loose).sum = out)
    (hbufs : s'.bufs = s.bufs) (hfits : pc'.Fits B s'.bufs) (hagrees : pc'.Agrees s'.bufs) :
    Moved B live total s s' pc' others := by
  refine ⟨?_, hfits, hagrees, fun pc hpc buf hbuf => by rw [hbufs]⟩
  rw [hclaims, hloose]
  exact h

/-- A step that writes to the buffer of the thread. -/
theorem Moved.of_write (pc' : UserPc) {b : PktBuffer} {u : Stage} {loose' : Multiset Nat}
    (h : Books B live total s ((x, t) ::ₘ (others.map UserPc.claims).sum) loose)
    (hclaims : pc'.claims = {(x, u)}) (hloose : pc'.loose + (others.map UserPc.loose).sum = loose')
    (hb : u.Meets B b)
    (hsum : (addrs b.blkList.reduceOption : Multiset Nat) + loose' = s.held x + loose)
    (hfits : pc'.Fits B (s.putPkt s.mgr x b).bufs)
    (hagrees : pc'.Agrees (s.putPkt s.mgr x b).bufs) :
    Moved B live total s (s.putPkt s.mgr x b) pc' others := by
  refine ⟨?_, hfits, hagrees, untouched_of_books h fun y hy => s.putPkt_of_ne hy⟩
  rw [hclaims, hloose, Multiset.singleton_add]
  exact h.write u hb hsum

/-- `get_pktbuffer` -/
theorem getPktbuffer_moved (h : Inv B live total s (.idle :: others)) :
    ∃ s' pc', UserPc.exec s .idle .getPktbuffer = .ok (s', pc') ∧
      Moved B live total s s' pc' others := by
  have hbooks := h.cons
  simp only [UserPc.claims, UserPc.loose, zero_add] at hbooks
  cases hpool : s.mgr.pktBuf.items with
  | nil =>
    refine ⟨s, .idle, ?_, .of_books .idle hbooks (zero_add _) (zero_add _) rfl trivial trivial⟩
    rw [UserPc.exec, Fifo.pop, hpool]
  | cons buf pool =>
    refine ⟨_, .reset buf, ?_, .of_books (.reset buf) (hbooks.popBuf hpool)
      (Multiset.singleton_add _ _) (zero_add _) rfl trivial trivial⟩
    rw [UserPc.exec, Fifo.pop, hpool]

/-- `reset` -/
theorem reset_moved (h : Inv B live total s (.reset buf :: others)) :
    ∃ s' pc', UserPc.step s (.reset buf) = .ok (s', pc') ∧ Moved B live total s s' pc' others := by
  have hbooks := h.cons
  simp only [UserPc.claims, UserPc.loose, Multiset.singleton_add, zero_add] at hbooks
  have hlist : (s.bufs buf).reset.blkList = ([] : List PktBlock).map some := hbooks.meets
  have hparcel : Stage.parcel.Meets B (s.bufs buf).reset :=
    ⟨[], hlist, by simp, by simp, Or.inl rfl, rfl⟩
  refine ⟨_, .has buf, rfl, .of_write (.has buf) hbooks rfl (zero_add _) hparcel rfl trivial ?_⟩
  rw [UserPc.Agrees, s.putPkt_self, blkBytes_of_list hlist]
  rfl

/-! ## alloc -/

/-- The call of `alloc`. -/
theorem alloc_moved {size : Nat} (hlt : size < 2 ^ 32) (f ins : Bool)
    (h : Inv B live total s (.has buf :: others)) (hagrees : (UserPc.has buf).Agrees s.bufs) :
    ∃ s' pc', UserPc.exec s (.has buf) (.alloc size f ins) = .ok (s', pc') ∧
      Moved B live total s s' pc' others := by
  have hbooks := h.cons
  simp only [UserPc.claims, UserPc.loose, Multiset.singleton_add, zero_add] at hbooks
  obtain ⟨blks, hp⟩ := hbooks.meets
  obtain ⟨b, hb⟩ : ∃ b, b = { s.bufs buf with
      capacity := add32 (s.bufs buf).capacity size, ref := 1 } := ⟨_, rfl⟩
  have hlist : b.blkList = blks.map some := by
    rw [hb]
    exact hp.list
  have hcap : b.capacity = add32 (blkBytes b) size := by
    rw [UserPc.Agrees, blkBytes_of_list hp.list] at hagrees
    rw [blkBytes_of_list hlist, hb, ← hagrees]
  refine ⟨s.putPkt s.mgr buf b, .alloc buf size size f ins [], ?_,
    .of_write (.alloc buf size size f ins []) hbooks rfl (zero_add _)
      ⟨blks, hlist, fun blk hblk => (hp.ok blk hblk).payload⟩ ?_
      ⟨⟨blks, ?_⟩, by simp, Nat.zero_add _⟩ ?_⟩
  · rw [UserPc.exec, if_pos hlt, hb]
  · rw [hb]
    rfl
  · rw [s.putPkt_self]
    exact ⟨hlist, hp.ok, hp.lt, by rw [hb]⟩
  · rw [UserPc.Agrees, s.putPkt_self]
    exact hcap

/-- `alloc` asks for a block, and gets it or fails. -/
theorem getPktblock_moved {size left : Nat} {f ins : Bool} {blkList : List PktBlock}
    (h : Inv B live total s (.alloc buf size (left + 1) f ins blkList :: others))
    (hagrees : (UserPc.alloc buf size (left + 1) f ins blkList).Agrees s.bufs) :
    ∃ s' pc', UserPc.step s (.alloc buf size (left + 1) f ins blkList) = .ok (s', pc') ∧
      Moved B live total s s' pc' others := by
  have hbooks := h.cons
  obtain ⟨hgrows, hok, hsizes⟩ := h.fits _ List.mem_cons_self
  simp only [UserPc.claims, UserPc.loose] at hbooks
  by_cases hnil : s.mgr.pktBlk.items = []
  · refine ⟨s, .undo buf size blkList, ?_, .of_books (.undo ..) hbooks rfl rfl rfl
      ⟨hgrows, fun blk hblk => (hok blk hblk).payload⟩ hagrees⟩
    rw [UserPc.step, Books.noBlk hnil]
    rfl
  · obtain ⟨blk, m, hget, hB, hpay, hbooks'⟩ := hbooks.takeBlk hnil
    have hblkok := cutBlk_ok hbooks.pos (Nat.le_add_left 1 left) hpay f
    have hsum := addrs_concat_add blkList (cutBlk B f (left + 1) blk)
      (others.map UserPc.loose).sum
    refine ⟨_, .alloc buf size (left + 1 - min (left + 1) B) f ins
      (blkList ++ [cutBlk B f (left + 1) blk]), ?_,
      .of_books (.alloc ..) hbooks' rfl hsum rfl ⟨hgrows, ?_, ?_⟩ hagrees⟩
    · rw [UserPc.step, hget, ← hB]
      rfl
    · intro blk' hin
      rcases List.mem_append.mp hin with hin | hin
      · exact hok blk' hin
      · rw [List.mem_singleton.mp hin]
        exact hblkok
    · rw [sizes_append, sizes_cons, sizes_nil]
      change _ + (min (left + 1) B + 0) + _ = _
      omega

/-- A failed `alloc` gives its blocks back, and then takes back what it added. -/
theorem undo_moved {size : Nat} {blkList : List PktBlock}
    (h : Inv B live total s (.undo buf size blkList :: others))
    (hagrees : (UserPc.undo buf size blkList).Agrees s.bufs) :
    ∃ s' pc', UserPc.step s (.undo buf size blkList) = .ok (s', pc') ∧
      Moved B live total s s' pc' others := by
  have hbooks := h.cons
  obtain ⟨⟨blks, hgrows⟩, hpay⟩ := h.fits _ List.mem_cons_self
  simp only [UserPc.claims, UserPc.loose, Multiset.singleton_add] at hbooks
  cases blkList with
  | nil =>
    rw [addrs_nil, Multiset.coe_nil, zero_add] at hbooks
    obtain ⟨b, hb⟩ : ∃ b, b = { s.bufs buf with
        capacity := sub32 (s.bufs buf).capacity size } := ⟨_, rfl⟩
    have hlist : b.blkList = blks.map some := by
      rw [hb]
      exact hgrows.list
    have hcap : b.capacity = sizes blks := by
      rw [UserPc.Agrees, blkBytes_of_list hgrows.list] at hagrees
      rw [hb, hagrees]
      exact wrapSub_wrapAdd hgrows.lt size
    have href : b.ref = 1 := by
      rw [hb]
      exact hgrows.ref
    refine ⟨s.putPkt s.mgr buf b, .has buf, ?_, .of_write (.has buf) hbooks rfl (zero_add _)
      ⟨blks, hlist, hgrows.ok, hgrows.lt, Or.inl hcap, href⟩ ?_ trivial ?_⟩
    · rw [UserPc.step, hb]
    · rw [hb]
      rfl
    · rw [UserPc.Agrees, s.putPkt_self, blkBytes_of_list hlist]
      exact hcap
  | cons blk blkList =>
    rw [addrs_cons, ← Multiset.cons_coe, Multiset.cons_add] at hbooks
    have hgive := hbooks.giveBlk (hpay blk List.mem_cons_self)
    refine ⟨_, .undo buf size blkList, rfl, .of_books (.undo ..) hgive
      (Multiset.singleton_add _ _) rfl rfl ⟨⟨blks, hgrows⟩, ?_⟩ hagrees⟩
    intro blk' hblk'
    exact hpay blk' (List.mem_cons_of_mem _ hblk')

/-- The list after `alloc`. -/
theorem linkBlocks_eq {b : PktBuffer} {blks : List PktBlock} (h : b.blkList = blks.map some)
    (f ins : Bool) (blkList : List PktBlock) :
    ∃ cur, linkBlocks b f ins blkList = { b with
      blkList := (joined ins (if f then blkList.reverse else blkList) blks).map some
      curBlk := cur } := by
  unfold linkBlocks joined
  cases ins with
  | true =>
    cases f with
    | true =>
      obtain ⟨cur, hfold⟩ := foldl_pushFront_list (blkList.map some) b
      have hl : (blkList.map some).reverse ++ b.blkList = (blkList.reverse ++ blks).map some := by
        simp [h]
      simp only [if_true, hfold, hl]
      exact ⟨cur, rfl⟩
    | false =>
      obtain ⟨cur, hfold⟩ := foldl_pushFront_list (blkList.reverse.map some) b
      have hl : (blkList.reverse.map some).reverse ++ b.blkList = (blkList ++ blks).map some := by
        simp [h]
      simp only [if_true, Bool.false_eq_true, if_false, hfold, hl]
      exact ⟨cur, rfl⟩
  | false =>
    cases f with
    | true =>
      have hl : b.blkList ++ blkList.reverse.map some = (blks ++ blkList.reverse).map some := by
        simp [h]
      simp only [if_true, Bool.false_eq_true, if_false, foldl_pushBack_list, hl]
      exact ⟨b.curBlk, rfl⟩
    | false =>
      have hl : b.blkList ++ blkList.map some = (blks ++ blkList).map some := by
        simp [h]
      simp only [Bool.false_eq_true, if_false, foldl_pushBack_list, hl]
      exact ⟨b.curBlk, rfl⟩

/-- What the end of `alloc` does to a packet with the blocks `blks`. -/
structure Links (b b' : PktBuffer) (blks blkList new : List PktBlock) : Prop where
  list : b'.blkList = new.map some
  capacity : b'.capacity = b.capacity
  ref : b'.ref = b.ref
  sizes : sizes new = sizes blks + sizes blkList
  mem : ∀ blk ∈ new, blk ∈ blkList ∨ blk ∈ blks
  addrs : (addrs new : Multiset Nat) = addrs blkList + addrs blks

theorem linkBlocks_links {b : PktBuffer} {blks : List PktBlock} (h : b.blkList = blks.map some)
    (f ins : Bool) (blkList : List PktBlock) :
    ∃ b' new, (linkBlocks b f ins blkList).resetAccess = .ok b' ∧ Links b b' blks blkList new := by
  obtain ⟨cur, hlink⟩ := linkBlocks_eq h f ins blkList
  refine ⟨_, joined ins (if f then blkList.reverse else blkList) blks,
    resetAccess_eq (by rw [hlink]), ?_, ?_, ?_, ?_, ?_, ?_⟩
  · rw [hlink]
    rfl
  · rw [hlink]
    rfl
  · rw [hlink]
    rfl
  · rw [sizes_joined]
    cases f with
    | true => rw [if_pos rfl, sizes_reverse]
    | false => rw [if_neg Bool.false_ne_true]
  · intro blk hblk
    refine (mem_joined.mp hblk).imp_left fun hblk => ?_
    cases f with
    | true => exact List.mem_reverse.mp hblk
    | false => exact hblk
  · rw [Multiset.coe_eq_coe.mpr (addrs_joined ins _ blks), ← Multiset.coe_add]
    cases f with
    | true =>
      rw [if_pos rfl, addrs, List.map_reverse, Multiset.coe_reverse]
      rfl
    | false => rw [if_neg Bool.false_ne_true]

/-- `alloc` has all its blocks: `m_capacity` is right unless the sum is too large for it. -/
theorem linkBlocks_moved {size : Nat} {f ins : Bool} {blkList : List PktBlock}
    (h : Inv B live total s (.alloc buf size 0 f ins blkList :: others))
    (hagrees : (UserPc.alloc buf size 0 f ins blkList).Agrees s.bufs) :
    ∃ s', UserPc.step s (.alloc buf size 0 f ins blkList) = .ok (s', .has buf) ∧
      (blkBytes (s.bufs buf) + size < 2 ^ 32 → Moved B live total s s' (.has buf) others) ∧
      ((UserPc.has buf).Agrees s'.bufs → blkBytes (s.bufs buf) + size < 2 ^ 32) := by
  have hbooks := h.cons
  obtain ⟨⟨blks, hgrows⟩, hok, hsizes⟩ := h.fits _ List.mem_cons_self
  simp only [UserPc.claims, UserPc.loose, Multiset.singleton_add] at hbooks
  obtain ⟨b, new, hreset, hlinks⟩ := linkBlocks_links hgrows.list f ins blkList
  have hcap : b.capacity = add32 (blkBytes (s.bufs buf)) size := hlinks.capacity.trans hagrees
  have hbytes : blkBytes b = blkBytes (s.bufs buf) + size := by
    rw [blkBytes_of_list hlinks.list, blkBytes_of_list hgrows.list, hlinks.sizes]
    omega
  refine ⟨s.putPkt s.mgr buf b, by rw [UserPc.step, hreset]; rfl, fun hlt => ?_, fun hhas => ?_⟩
  · have hcap' : b.capacity = blkBytes b := by
      rw [hcap, hbytes]
      exact wrapAdd_eq hlt
    have hsizes' := blkBytes_of_list hlinks.list
    refine .of_write (.has buf) hbooks rfl (zero_add _)
      ⟨new, hlinks.list, ?_, by omega, Or.inl (by omega), hlinks.ref.trans hgrows.ref⟩ ?_
      trivial ?_
    · intro blk hblk
      exact (hlinks.mem blk hblk).elim (hok blk) (hgrows.ok blk)
    · rw [hlinks.list, reduceOption_map_some, hlinks.addrs, World.held_of_list hgrows.list,
        ← add_assoc, add_comm (addrs blks : Multiset Nat)]
    · rw [UserPc.Agrees, s.putPkt_self]
      exact hcap'
  · rw [UserPc.Agrees, s.putPkt_self, hcap, hbytes] at hhas
    have hmod : (blkBytes (s.bufs buf) + size) % 2 ^ 32 < 2 ^ 32 := Nat.mod_lt _ (by decide)
    change (blkBytes (s.bufs buf) + size) % 2 ^ 32 = _ at hhas
    omega

/-! ## free -/

theorem FreePc.step_frame (pc : FreePc) {y : BufId} (hy : y ≠ pc.buf) :
    (pc.step s).1.bufs y = s.bufs y := by
  cases pc with
  | enter buf => exact s.putPkt_of_ne hy
  | blocks buf =>
    unfold FreePc.step
    dsimp only
    split
    · rfl
    · exact s.putPkt_of_ne hy
  | clear buf => exact s.putPkt_of_ne hy

/-- A step of `free`, if it leaves the others alone. -/
theorem free_moved {pc : FreePc} (h : Inv B live total s (.free pc :: others))
    (huntouched : Untouched s (pc.step s).1 others) :
    ∃ s' pc', UserPc.step s (.free pc) = .ok (s', pc') ∧ s' = (pc.step s).1 ∧
      Moved B live total s s' pc' others := by
  have hbooks := h.cons
  simp only [UserPc.claims, UserPc.loose, zero_add] at hbooks
  have hstep := pc.step_books hbooks
  rcases pc.step_eq s with ⟨pc', heq⟩ | heq
  · rw [heq] at hstep
    refine ⟨_, .free pc', by rw [UserPc.step, heq], rfl, ?_, trivial, trivial, huntouched⟩
    change Books B live total _ (pc'.claims + _) (0 + _)
    rw [zero_add]
    exact hstep
  · rw [heq] at hstep
    refine ⟨_, .idle, by rw [UserPc.step, heq], rfl, ?_, trivial, trivial, huntouched⟩
    change Books B live total _ (0 + _) (0 + _)
    rw [zero_add ((others.map UserPc.loose).sum)]
    exact hstep

/-- Before the buffer is released it is the thread's own. -/
theorem own_untouched {pc : FreePc} (h : Inv B live total s (.free pc :: others))
    (hclaims : pc.claims = {(pc.buf, t)}) : Untouched s (pc.step s).1 others := by
  have hbooks := h.cons
  rw [UserPc.claims, hclaims, Multiset.singleton_add] at hbooks
  exact untouched_of_books hbooks fun y hy => pc.step_frame hy

/-- Afterwards the write touches nothing if there is a zero already. -/
theorem clear_untouched
    (hzero : ∀ pc ∈ others, pc.holds = some buf → (s.bufs buf).capacity = 0) :
    Untouched s ((FreePc.clear buf).step s).1 others := by
  intro pc hpc y hy
  by_cases hbuf : y = buf
  · subst hbuf
    have hcap := hzero pc hpc hy
    change (s.putPkt s.mgr y { s.bufs y with capacity := 0 }).bufs y = _
    rw [s.putPkt_self, ← hcap]
  · exact FreePc.step_frame (.clear buf) hbuf

/-- And does harm otherwise. -/
theorem not_agrees_clear (hagrees : pc.Agrees s.bufs) (hholds : pc.holds = some buf)
    (hcap : (s.bufs buf).capacity ≠ 0) : ¬ pc.Agrees ((FreePc.clear buf).step s).1.bufs := by
  have hwrite : ((FreePc.clear buf).step s).1.bufs buf = { s.bufs buf with capacity := 0 } :=
    s.putPkt_self ..
  have hbytes : blkBytes (((FreePc.clear buf).step s).1.bufs buf) = blkBytes (s.bufs buf) := by
    rw [hwrite]
    rfl
  have hzero : (((FreePc.clear buf).step s).1.bufs buf).capacity = 0 := by
    rw [hwrite]
  intro hagrees'
  cases pc with
  | has buf' =>
    obtain rfl := Option.some.inj hholds
    rw [UserPc.Agrees] at hagrees hagrees'
    omega
  | alloc buf' size left f ins blkList =>
    obtain rfl := Option.some.inj hholds
    rw [UserPc.Agrees, hbytes] at hagrees'
    rw [UserPc.Agrees] at hagrees
    omega
  | undo buf' size blkList =>
    obtain rfl := Option.some.inj hholds
    rw [UserPc.Agrees, hbytes] at hagrees'
    rw [UserPc.Agrees] at hagrees
    omega
  | _ => cases hholds

/-! ## Any step -/

theorem Inv.same (h : Inv B live total s (pc :: others)) (hagrees : pc.Agrees s.bufs) :
    Moved B live total s s pc others :=
  ⟨h.cons, h.fits pc List.mem_cons_self, hagrees, fun _ _ _ _ => rfl⟩

/-- What is to be shown of a call: it is possible, it goes well if it meets
the condition, and does harm if it does not. -/
def Exact (B : Nat) (live : Finset BufId) (total : Multiset Nat) (s : Stack) (pc : UserPc)
    (call : UserCall) (others : List UserPc) : Prop :=
  ∃ s' pc', pc.exec s call = .ok (s', pc') ∧
    (pc.Spares s (pc :: others) call → Moved B live total s s' pc' others) ∧
    ((∀ q ∈ pc' :: others, q.Agrees s'.bufs) → pc.Spares s (pc :: others) call)

/-- A step that has no condition. -/
theorem Exact.of_moved {call : UserCall} (hspares : pc.Spares s (pc :: others) call)
    (h : ∃ s' pc', pc.exec s call = .ok (s', pc') ∧ Moved B live total s s' pc' others) :
    Exact B live total s pc call others := by
  obtain ⟨s', pc', hexec, hmoved⟩ := h
  exact ⟨s', pc', hexec, fun _ => hmoved, fun _ => hspares⟩

/-- **Step** of a call. -/
theorem step_exact (h : Inv B live total s (pc :: others))
    (hagrees : ∀ q ∈ pc :: others, q.Agrees s.bufs) : Exact B live total s pc .step others := by
  have hown : pc.Agrees s.bufs := hagrees pc List.mem_cons_self
  cases pc with
  | idle => exact .of_moved trivial ⟨s, .idle, rfl, h.same hown⟩
  | reset buf => exact .of_moved trivial (reset_moved h)
  | has buf => exact .of_moved trivial ⟨s, .has buf, rfl, h.same hown⟩
  | alloc buf size left f ins blkList =>
    cases left with
    | zero =>
      obtain ⟨s', hstep, hmoved, hharm⟩ := linkBlocks_moved h hown
      exact ⟨s', .has buf, hstep, hmoved, fun hall => hharm (hall _ List.mem_cons_self)⟩
    | succ left => exact .of_moved trivial (getPktblock_moved h hown)
  | undo buf size blkList => exact .of_moved trivial (undo_moved h hown)
  | free pc =>
    cases pc with
    | enter buf =>
      obtain ⟨s', pc', hstep, -, hmoved⟩ := free_moved h (own_untouched h rfl)
      exact .of_moved trivial ⟨s', pc', hstep, hmoved⟩
    | blocks buf =>
      obtain ⟨s', pc', hstep, -, hmoved⟩ := free_moved h (own_untouched h rfl)
      exact .of_moved trivial ⟨s', pc', hstep, hmoved⟩
    | clear buf =>
      refine ⟨_, .idle, rfl, fun hzero => ?_, fun hall pc hpc hholds => ?_⟩
      · obtain ⟨s', pc', hstep, -, hmoved⟩ := free_moved h
          (clear_untouched fun pc hpc => hzero pc (List.mem_cons_of_mem _ hpc))
        cases hstep
        exact hmoved
      · by_contra hcap
        rcases List.mem_cons.mp hpc with rfl | hpc
        · cases hholds
        · exact not_agrees_clear (hagrees pc (List.mem_cons_of_mem _ hpc)) hholds hcap
            (hall pc (List.mem_cons_of_mem _ hpc))

theorem UserPc.spares_of_ne {call : UserCall} (hne : call ≠ .step) :
    pc.Spares s threads call := by
  unfold UserPc.Spares
  split
  · exact absurd rfl hne
  · exact absurd rfl hne
  · trivial

theorem UserPc.spares_perm (hp : threads.Perm threads') {call : UserCall} :
    pc.Spares s threads call ↔ pc.Spares s threads' call := by
  unfold UserPc.Spares
  split
  · simp only [hp.mem_iff]
  · exact Iff.rfl
  · exact Iff.rfl

/-- **Step** of one of the threads. -/
theorem exec_exact (h : Inv B live total s (pc :: others))
    (hagrees : ∀ q ∈ pc :: others, q.Agrees s.bufs) (call : UserCall) :
    Exact B live total s pc call others := by
  have hown : pc.Agrees s.bufs := hagrees pc List.mem_cons_self
  have hsame (heq : pc.exec s call = .ok (s, pc)) (hne : call ≠ .step) :
      Exact B live total s pc call others :=
    .of_moved (UserPc.spares_of_ne hne) ⟨s, pc, heq, h.same hown⟩
  cases call with
  | step => exact step_exact h hagrees
  | getPktbuffer =>
    cases pc with
    | idle => exact .of_moved trivial (getPktbuffer_moved h)
    | _ => exact hsame rfl UserCall.noConfusion
  | alloc size f ins =>
    cases pc with
    | has buf =>
      by_cases hlt : size < 2 ^ 32
      · exact .of_moved trivial (alloc_moved hlt f ins h hown)
      · refine hsame ?_ UserCall.noConfusion
        rw [UserPc.exec, if_neg hlt]
    | _ => exact hsame rfl UserCall.noConfusion
  | free =>
    cases pc with
    | has buf =>
      exact .of_moved trivial ⟨s, .free (.enter buf), rfl,
        .of_books (.free (.enter buf)) h.cons rfl rfl rfl trivial trivial⟩
    | _ => exact hsame rfl UserCall.noConfusion

end Steps

/-! ## Runs -/

namespace Users

variable {s s₀ : Users}

/-- **Step** of the system. -/
theorem next_exact (h : Inv B live total s.toStack s.threads) (hintact : s.Intact) (a : UserAct) :
    ∃ t, s.next a = some t ∧ (s.Spares a → Inv B live total t.toStack t.threads) ∧
      (t.Intact ↔ s.Spares a) := by
  cases hpc : s.threads[a.1]? with
  | none =>
    refine ⟨s, ?_, fun _ => h, iff_of_true hintact ?_⟩
    · rw [next, exec, hpc]
      rfl
    · intro pc hmem
      rw [hpc] at hmem
      cases hmem
  | some pc =>
    obtain ⟨hlt, hget⟩ := List.getElem?_eq_some_iff.mp hpc
    -- the thread in front of the others
    have hperm : s.threads.Perm (pc :: s.threads.eraseIdx a.1) := by
      rw [← hget]
      exact (List.getElem_cons_eraseIdx_perm hlt).symm
    have hperm' (pc' : UserPc) :
        (s.threads.set a.1 pc').Perm (pc' :: s.threads.eraseIdx a.1) :=
      List.set_perm_cons_eraseIdx hlt pc'
    have hfront : ∀ q ∈ pc :: s.threads.eraseIdx a.1, q.Agrees s.bufs :=
      fun q hq => hintact q (hperm.mem_iff.mpr hq)
    have hspares : s.Spares a ↔ pc.Spares s.toStack (pc :: s.threads.eraseIdx a.1) a.2 := by
      rw [← UserPc.spares_perm hperm, Spares, hpc]
      simp
    obtain ⟨s', pc', hexec, hmoved, hharm⟩ := exec_exact (h.perm hperm) hfront a.2
    refine ⟨{ s with toStack := s', threads := s.threads.set a.1 pc' }, ?_, fun hok => ?_, ?_⟩
    · rw [next, exec, hpc]
      simp only [hexec, ok_bind]
      rfl
    · have hinv := (hmoved (hspares.mp hok)).inv fun q hq =>
        h.fits q (hperm.mem_iff.mpr (List.mem_cons_of_mem _ hq))
      exact hinv.perm (hperm' pc').symm
    · rw [hspares]
      constructor
      · intro hall
        exact hharm fun q hq => hall q ((hperm' pc').mem_iff.mpr hq)
      · intro hok q hq
        exact (hmoved hok).intact (fun q hq => hfront q (List.mem_cons_of_mem _ hq)) q
          ((hperm' pc').mem_iff.mp hq)

/-- Everything is in its pool, no object twice, and no thread has anything. -/
structure Start (s : Users) : Prop where
  sound : s.mgr.Sound
  nodup : s.mgr.pktBuf.items.Nodup
  room : s.mgr.pktBuf.items.length ≤ s.mgr.pktBuf.cap
  blank : ∀ x ∈ s.mgr.pktBuf.items, (s.bufs x).blkList = []
  queue : s.netif.inQ.items = []
  idle : ∀ pc ∈ s.threads, pc = .idle

theorem Start.inv (h : Start s) :
    Inv s.mgr.blkSize ⟨s.mgr.pktBuf.items, h.nodup⟩ (addrs s.free : Multiset Nat)
      s.toStack s.threads := by
  have hpath : RecvPath.Start { s with recv := .idle, work := .idle } :=
    ⟨h.sound, h.nodup, h.room, h.blank, h.queue, rfl, rfl⟩
  obtain ⟨⟨lost, hbooks, hlost⟩, -, -⟩ := hpath.inv
  change 0 + lost.card = 0 at hlost
  obtain rfl : lost = 0 := Multiset.card_eq_zero.mp (by omega)
  have hclaims : (s.threads.map UserPc.claims).sum = 0 := by
    refine List.sum_eq_zero fun c hc => ?_
    obtain ⟨pc, hpc, rfl⟩ := List.mem_map.mp hc
    rw [h.idle pc hpc]
    rfl
  have hloose : (s.threads.map UserPc.loose).sum = 0 := by
    refine List.sum_eq_zero fun c hc => ?_
    obtain ⟨pc, hpc, rfl⟩ := List.mem_map.mp hc
    rw [h.idle pc hpc]
    rfl
  refine ⟨?_, fun pc hpc => ?_⟩
  · rw [hclaims, hloose]
    exact hbooks
  · rw [h.idle pc hpc]
    trivial

theorem Start.intact (h : Start s) : s.Intact := by
  intro pc hpc
  rw [h.idle pc hpc]
  trivial

/-- **free.** In every run of any number of threads, `m_capacity` of every
buffer that a thread has obtained is what its own calls have made it,
exactly if every late `m_capacity = 0` finds nobody with a packet in that
buffer, and no packet grows to 2^32 bytes. -/
theorem intact_iff (h₀ : Start s₀) (acts : List UserAct) :
    Always next Intact s₀ acts ↔ Along next Spares s₀ acts :=
  always_iff_along (fun _ a h hintact => next_exact h hintact a) acts s₀ h₀.inv h₀.intact

/-- Two threads, two blocks of 16 bytes and one buffer. -/
def pair : Users where
  mgr := {
    blkSize := 16
    pktBlk := ⟨2, [some ⟨0, 0, 0, List.replicate 16 0⟩, some ⟨1, 0, 0, List.replicate 16 0⟩]⟩
    pktBuf := ⟨1, [0]⟩ }
  bufs _ := PktBuffer.new
  netif := quietEther 1
  memBlock := ⟨1, [0]⟩
  msgQueue := ⟨1, []⟩
  threads := [.idle, .idle]

theorem pair_start : Start pair where
  sound := ⟨by decide, by decide, ⟨[⟨0, 0, 0, List.replicate 16 0⟩, ⟨1, 0, 0, List.replicate 16 0⟩],
    rfl, by decide⟩, by decide⟩
  nodup := by decide
  room := by decide
  blank := by decide
  queue := rfl
  idle := by decide

/-- A thread gets a buffer and allocates `size` bytes, in one block. -/
def obtain (k size : Nat) : List UserAct :=
  [(k, .getPktbuffer), (k, .step), (k, .alloc size true false), (k, .step), (k, .step)]

/-- A thread frees its packet, up to the release of the buffer. -/
def release (k : Nat) : List UserAct :=
  (k, .free) :: List.replicate 3 (k, .step)

/-- The zero goes into a buffer that has just been reset. -/
theorem intact_clear_before_alloc :
    Always next Intact pair (obtain 0 3 ++ release 0 ++
      [(1, .getPktbuffer), (1, .step), (0, .step), (1, .alloc 5 true false), (1, .step),
        (1, .step)]) :=
  (intact_iff pair_start _).mpr (by decide +kernel)

/-- The zero comes late: the packet of the other thread has five bytes by then. -/
theorem not_intact_clear_after_alloc :
    Start pair ∧
      (∃ s, run next pair (obtain 0 3 ++ release 0 ++ obtain 1 5 ++ [(0, .step)]) = some s ∧
        .has 0 ∈ s.threads ∧ (s.bufs 0).capacity = 0 ∧ blkBytes (s.bufs 0) = 5) ∧
      ¬ Always next Intact pair (obtain 0 3 ++ release 0 ++ obtain 1 5 ++ [(0, .step)]) := by
  have hmap : (run next pair (obtain 0 3 ++ release 0 ++ obtain 1 5 ++ [(0, .step)])).map
      (fun s => (s.threads, (s.bufs 0).capacity, blkBytes (s.bufs 0))) =
      some ([.idle, .has 0], 0, 5) := by decide +kernel
  obtain ⟨s, hrun, hs⟩ := Option.map_eq_some_iff.mp hmap
  obtain ⟨hthreads, hcap, hbytes⟩ : s.threads = [.idle, .has 0] ∧ (s.bufs 0).capacity = 0 ∧
      blkBytes (s.bufs 0) = 5 := by simpa using hs
  have hhas : UserPc.has 0 ∈ s.threads := by
    rw [hthreads]
    decide
  refine ⟨pair_start, ⟨s, hrun, hhas, hcap, hbytes⟩, fun h => ?_⟩
  have hagrees : (s.bufs 0).capacity = blkBytes (s.bufs 0) := h.of_run hrun _ hhas
  omega

end Users

end TinyTcp.Net
