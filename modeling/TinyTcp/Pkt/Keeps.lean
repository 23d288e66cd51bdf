/-
TinyTcp.Pkt.Keeps — which layout operations leave the cursor on its byte.

Only `alloc` (and what ends in it) resets the cursor; the other operations
move bytes or blocks under it. `HeaderKeeps`, `ResizeKeeps` and `ContKeeps`
say for which arguments and in which states the cursor still names byte
`m_pos` afterwards. They are conditions on the state before the call: how
much slack the first and the last block have, how many bytes the free list
can give, where the position is.

Each `_keeps` lemma takes a buffer with a cursor and such a condition and
shows that the call does not fault and ends in `Kept`: a sound manager and
a buffer with a cursor, whether the call reports success or not.
-/
import TinyTcp.Pkt.Access
import TinyTcp.Pkt.ContHeader
import TinyTcp.Pkt.Resize

namespace TinyTcp.Pkt

open TinyTcp.Lib

/-! ## What the calls look at -/

/-- How many bytes the free list can give. -/
def PktManager.freeBytes (m : PktManager) : Nat := m.pktBlk.items.length * m.blkSize

/-- A manager whose free list can be used. `blkSize` is a `uint32_t`. -/
structure PktManager.Sound (m : PktManager) : Prop where
  blkSize_pos : 1 ≤ m.blkSize
  blkSize_lt : m.blkSize < 2 ^ 32
  pool : ∃ free, m.Pool free
  room : m.pktBlk.items.length ≤ m.pktBlk.cap

namespace PktBuffer

def frontSlack (b : PktBuffer) : Nat :=
  match b.blkList with
  | some first :: _ => first.data
  | _ => 0

def frontSize (b : PktBuffer) : Nat :=
  match b.blkList with
  | some first :: _ => first.size
  | _ => 0

def backSlack (B : Nat) (b : PktBuffer) : Nat :=
  match b.blkList.getLast? with
  | some (some tail) => tail.getLastSize B
  | _ => 0

def sizeBeforeLast (b : PktBuffer) : Nat := sizes b.blkList.reduceOption.dropLast

/-- `alloc_header` does nothing, or ends in an `alloc` that succeeds, or
fails without having changed the first block. -/
def HeaderKeeps (m : PktManager) (b : PktBuffer) (size : Nat) (isCont : Bool) : Prop :=
  b.blkList = [] ∨ size = 0 ∨ (b.frontSlack < size ∧
    if isCont then m.blkSize < size
    else size - b.frontSlack ≤ m.freeBytes ∨ b.frontSlack = 0)

/-- `resize` does nothing, allocates, cuts behind the cursor within the
last block, or grows the last block while the cursor is not at the end. -/
def ResizeKeeps (m : PktManager) (b : PktBuffer) (size : Nat) : Prop :=
  size = b.capacity ∨ b.capacity = 0 ∨
  (size < b.capacity ∧ b.sizeBeforeLast < size ∧ b.pos < size) ∨
  (b.capacity < size ∧
    if size ≤ b.backSlack m.blkSize then b.pos < b.capacity
    else
      (b.capacity + b.backSlack m.blkSize ≤ size ∧
        size - (b.capacity + b.backSlack m.blkSize) ≤ m.freeBytes) ∨
      (m.freeBytes < sub32 size (b.capacity + b.backSlack m.blkSize) ∧
        (b.pos < b.capacity ∨ b.backSlack m.blkSize = 0)))

/-- `set_cont_header` does nothing, or the cursor is behind the gathered
bytes, or in a first window that does not move. -/
def ContKeeps (m : PktManager) (b : PktBuffer) (size : Nat) : Prop :=
  b.capacity < size ∨ m.blkSize < size ∨ size ≤ b.frontSize ∨ size ≤ b.pos ∨
    (b.pos < b.frontSize ∧ b.frontSlack = 0)

instance (m : PktManager) (b : PktBuffer) (size : Nat) (isCont : Bool) :
    Decidable (HeaderKeeps m b size isCont) := by
  unfold HeaderKeeps
  infer_instance

instance (m : PktManager) (b : PktBuffer) (size : Nat) : Decidable (ResizeKeeps m b size) := by
  unfold ResizeKeeps
  infer_instance

instance (m : PktManager) (b : PktBuffer) (size : Nat) : Decidable (ContKeeps m b size) := by
  unfold ContKeeps
  infer_instance

/-- What the operations leave behind. -/
structure Kept (m m' : PktManager) (b' : PktBuffer) : Prop where
  blkSize : m'.blkSize = m.blkSize
  sound : m'.Sound
  cursor : ∃ blks p, b'.Cursor m.blkSize blks p

end PktBuffer

/-! ## The manager -/

namespace PktManager

variable {m : PktManager} {free blks : List PktBlock}

theorem Pool.freeBytes (h : m.Pool free) : m.freeBytes = free.length * m.blkSize := by
  rw [PktManager.freeBytes, h.items, List.length_map]

/-- Full payloads come back, whether there is room for all of them or not. -/
theorem Pool.exists_release (h : m.Pool free)
    (hblks : ∀ blk ∈ blks, blk.payload.length = m.blkSize)
    (hroom : m.pktBlk.items.length ≤ m.pktBlk.cap) :
    ∃ free', (m.releaseAll (blks.map some)).Pool free' ∧
      (m.releaseAll (blks.map some)).pktBlk.items.length ≤ m.pktBlk.cap := by
  induction blks generalizing m free with
  | nil => exact ⟨free, h, hroom⟩
  | cons blk blks ih =>
    have hblk := hblks blk List.mem_cons_self
    have hrest : ∀ b ∈ blks, b.payload.length = m.blkSize :=
      fun b hb => hblks b (List.mem_cons_of_mem _ hb)
    rw [List.map_cons, releaseAll_cons]
    by_cases hfull : m.pktBlk.items.length < m.pktBlk.cap
    · have hnext : (m.releasePktblock (some blk)).Pool (free ++ [blk]) := by
        refine ⟨?_, ?_⟩
        · simp only [releasePktblock, Fifo.push_of_room hfull, h.items, List.map_append,
            List.map_cons, List.map_nil]
        · intro b hb
          rcases List.mem_append.mp hb with hb | hb
          · exact h.payload b hb
          · rw [List.mem_singleton.mp hb]
            exact hblk
      have hcap : (m.releasePktblock (some blk)).pktBlk.cap = m.pktBlk.cap := by
        simp only [releasePktblock, Fifo.push_of_room hfull]
      have hlen : (m.releasePktblock (some blk)).pktBlk.items.length ≤
          (m.releasePktblock (some blk)).pktBlk.cap := by
        rw [hcap]
        simp only [releasePktblock, Fifo.push_of_room hfull, List.length_append,
          List.length_cons, List.length_nil]
        omega
      obtain ⟨free', hpool, hroom'⟩ := ih hnext hrest hlen
      rw [hcap] at hroom'
      exact ⟨free', hpool, hroom'⟩
    · have hsame : m.releasePktblock (some blk) = m := by
        simp only [releasePktblock, Fifo.push_of_full (Nat.le_of_not_lt hfull)]
      rw [hsame]
      exact ih h hrest hroom

theorem Sound.withFree (h : m.Sound) (hfree : ∀ blk ∈ free, blk.payload.length = m.blkSize)
    (hlen : free.length ≤ m.pktBlk.cap) : (m.withFree free).Sound := by
  refine ⟨h.blkSize_pos, h.blkSize_lt, ⟨free, pool_withFree hfree⟩, ?_⟩
  change (free.map some).length ≤ m.pktBlk.cap
  rw [List.length_map]
  exact hlen

/-- The pool of buffers has no part in it. -/
theorem Sound.withPktBuf (h : m.Sound) (pool : Fifo BufId) : { m with pktBuf := pool }.Sound := by
  obtain ⟨free, hpool⟩ := h.pool
  exact ⟨h.blkSize_pos, h.blkSize_lt, ⟨free, hpool.items, hpool.payload⟩, h.room⟩

theorem Sound.release (h : m.Sound) (hblks : ∀ blk ∈ blks, blk.payload.length = m.blkSize) :
    (m.releaseAll (blks.map some)).Sound := by
  obtain ⟨free, hpool⟩ := h.pool
  obtain ⟨free', hpool', hroom'⟩ := hpool.exists_release hblks h.room
  have hcap : (m.releaseAll (blks.map some)).pktBlk.cap = m.pktBlk.cap :=
    Fifo.cap_pushAll m.pktBlk (blks.map some)
  exact ⟨h.blkSize_pos, h.blkSize_lt, ⟨free', hpool'⟩, by rw [hcap]; exact hroom'⟩

end PktManager

namespace PktBuffer

variable {m : PktManager} {b : PktBuffer} {blks : List PktBlock} {p n : Nat}

theorem Cursor.frontSlack_eq {first : PktBlock} {rest : List PktBlock} {B : Nat}
    (h : b.Holds B (first :: rest)) : b.frontSlack = first.data ∧ b.frontSize = first.size := by
  simp [frontSlack, frontSize, h.list]

/-- The buffer itself with another count of references. -/
theorem Cursor.withRef {B : Nat} (h : b.Cursor B blks p) (r : UInt32) :
    PktBuffer.Cursor B { b with ref := r } blks p :=
  ⟨⟨h.holds.list, h.holds.ok, h.holds.capacity, h.holds.lt⟩, h.lt, h.pos, h.here⟩

theorem Kept.same (hm : m.Sound) (h : b.Cursor m.blkSize blks p) : Kept m m b :=
  ⟨rfl, hm, blks, p, h⟩

/-! ## alloc and alloc_header -/

/-- With enough bytes in the free list, `alloc` gets them and resets the cursor. -/
theorem alloc_rewinds (hm : m.Sound) (hb : b.Holds m.blkSize blks)
    (hlt : b.capacity + n < 2 ^ 32) (hn : n ≤ m.freeBytes) (f ins : Bool) :
    ∃ m' blks', alloc m b n f ins = .ok (true, m', b.allocated n blks') ∧ m'.Sound ∧
      m'.blkSize = m.blkSize ∧ (b.allocated n blks').Holds m.blkSize blks' ∧
      sizes blks' = b.capacity + n := by
  obtain ⟨free, hpool⟩ := hm.pool
  have hroom := hm.room
  rw [hpool.items, List.length_map] at hroom
  rw [hpool.freeBytes] at hn
  obtain ⟨new, rest, hcarved, heq⟩ := alloc_ok hpool hm.blkSize_pos hb.list hn f ins
  have hr := alloc_reshaped hpool hb hlt hcarved ins
  have hshort := hcarved.length
  refine ⟨_, _, heq, hm.withFree hr.payload (by omega), rfl, hr.holds, ?_⟩
  rw [sizes_joined, hcarved.sizes, ← hb.capacity]

/-- So it keeps whatever the cursor was. -/
theorem alloc_enough (hm : m.Sound) (hb : b.Holds m.blkSize blks)
    (hlt : b.capacity + n < 2 ^ 31) (hn : n ≤ m.freeBytes) (f ins : Bool) :
    ∃ m' b', alloc m b n f ins = .ok (true, m', b') ∧ Kept m m' b' := by
  obtain ⟨m', blks', heq, hm', hB, hholds, hsizes⟩ := alloc_rewinds hm hb (by omega) hn f ins
  exact ⟨m', _, heq, hB, hm', blks', 0, hholds, by omega, rfl, rewound_at hholds.ok _⟩

/-- Without, it leaves everything but the count of references. -/
theorem alloc_fails (hm : m.Sound) (hcap : b.capacity < 2 ^ 32) (hn : m.freeBytes < n)
    (f ins : Bool) :
    ∃ m', alloc m b n f ins = .ok (false, m', { b with ref := 1 }) ∧ m'.Sound ∧
      m'.blkSize = m.blkSize := by
  obtain ⟨free, hpool⟩ := hm.pool
  have hroom := hm.room
  rw [hpool.items, List.length_map] at hroom
  rw [hpool.freeBytes] at hn
  obtain ⟨free', haddrs, hpay, heq⟩ := alloc_short hpool hroom hcap hn f ins
  have hlen' : free'.length = free.length := by
    simpa [addrs] using congrArg List.length haddrs
  exact ⟨_, heq, hm.withFree hpay (by omega), rfl⟩

theorem alloc_keeps (hm : m.Sound) (h : b.Cursor m.blkSize blks p)
    (hlt : b.capacity + n < 2 ^ 31) (f ins : Bool) :
    ∃ ok m' b', alloc m b n f ins = .ok (ok, m', b') ∧ Kept m m' b' := by
  by_cases hn : n ≤ m.freeBytes
  · obtain ⟨m', b', heq, hk⟩ := alloc_enough hm h.holds hlt hn f ins
    exact ⟨true, m', b', heq, hk⟩
  · obtain ⟨m', heq, hm', hB⟩ :=
      alloc_fails hm h.holds.capacity_lt (Nat.lt_of_not_le hn) f ins
    exact ⟨false, m', _, heq, hB, hm', blks, p, h.withRef 1⟩

/-- Only sizes and addresses count for a cursor. -/
theorem Cursor.congr {B : Nat} {b' : PktBuffer} {blks' : List PktBlock}
    (h : b.Cursor B blks p) (hb : b'.Holds B blks') (hl : layout blks' = layout blks)
    (hcur : b'.curBlk = b.curBlk) (hoff : b'.blkOffset = b.blkOffset) (hpos : b'.pos = b.pos) :
    b'.Cursor B blks' p := by
  refine ⟨hb, ?_, hpos.trans h.pos, ?_⟩
  · rw [sizes_of_layout hl]
    exact h.lt
  · rw [hcur, hoff]
    exact h.here.of_layout hl

theorem allocHeader_keeps (hm : m.Sound) (h : b.Cursor m.blkSize blks p)
    (hlt : b.capacity + n < 2 ^ 31) (isCont : Bool) (hc : HeaderKeeps m b n isCont) :
    ∃ e m' b', allocHeader m b n isCont = .ok (e, m', b') ∧ Kept m m' b' := by
  obtain ⟨free, hpool⟩ := hm.pool
  cases hblks : blks with
  | nil =>
    have hlist : b.blkList = [] := by rw [h.holds.list, hblks, List.map_nil]
    exact ⟨_, _, _, allocHeader_empty hlist n isCont, Kept.same hm h⟩
  | cons first rest =>
    rw [hblks] at h
    have hfront := (Cursor.frontSlack_eq h.holds).1
    have hcap := h.holds.capacity
    rw [sizes_cons] at hcap
    have hne : b.blkList ≠ [] := by
      rw [h.holds.list]
      exact List.cons_ne_nil _ _
    rcases hc with hnil | hzero | ⟨hslack, hc⟩
    · exact absurd hnil hne
    · -- nothing to insert
      have hsize : add32 first.size 0 = first.size := wrapAdd_eq (by omega)
      have hfits : n ≤ first.data := by omega
      have heq := allocHeader_inPlace (m := m) h.holds.list hfits isCont
      have hr := inPlace_reshaped hpool h.holds (by omega) hfits
      refine ⟨_, _, _, heq, rfl, hm, _, p, h.congr hr.holds ?_ rfl rfl rfl⟩
      rw [hzero, hsize]
      rfl
    · rw [hfront] at hslack
      cases isCont with
      | true => exact ⟨_, _, _, allocHeader_tooBig h.holds.list hslack hc, Kept.same hm h⟩
      | false =>
        rw [if_neg Bool.false_ne_true, hfront] at hc
        have hflush := flushFront_holds h.holds (by omega)
        have hcapf : (b.flushFront first rest).capacity = b.capacity + first.data :=
          wrapAdd_eq (by omega)
        have heq := allocHeader_split (m := m) h.holds.list hslack
        by_cases hn : n - first.data ≤ m.freeBytes
        · obtain ⟨m', b', halloc, hk⟩ := alloc_enough hm hflush (by omega) hn true true
          simp only [halloc, ok_bind, if_true] at heq
          exact ⟨_, m', b', heq, hk⟩
        · -- the failing call finds no slack to take in
          obtain ⟨m', halloc, hm', hB⟩ :=
            alloc_fails hm hflush.capacity_lt (Nat.lt_of_not_le hn) true true
          have hdata : first.data = 0 := by
            rcases hc with hc | hc
            · omega
            · exact hc
          have hsize : add32 first.size first.data = first.size := by
            rw [add32, wrapAdd_eq (by omega), hdata, Nat.add_zero]
          simp only [halloc, ok_bind, Bool.false_eq_true, if_false] at heq
          refine ⟨_, m', _, heq, hB, hm', flushed first :: rest, p, ?_⟩
          refine Cursor.withRef (h.congr hflush ?_ rfl rfl rfl) 1
          rw [flushed, hsize]
          simp [layout, hdata]

/-! ## remove_header of nothing -/

theorem removeHeader_keeps (hm : m.Sound) (h : b.Cursor m.blkSize blks p) (hne : b.blkList ≠ []) :
    ∃ e m' b', removeHeader m b 0 = .ok (e, m', b') ∧ Kept m m' b' := by
  have hlen : b.blkList.length ≠ 0 := fun hzero => hne (List.length_eq_zero_iff.mp hzero)
  have hloop : removeLoop b.blkList b.capacity 0 = .ok (b.blkList, b.capacity, []) := by
    cases b.blkList with
    | nil => rfl
    | cons ptr ptrs => rfl
  refine ⟨.ok, m, b, ?_, Kept.same hm h⟩
  simp only [removeHeader, if_neg hlen, hloop, ok_bind, PktManager.releaseAll_nil,
    List.length_nil, Iter.erased_none]

/-! ## resize -/

/-- A cursor survives a new size of the last block that keeps its byte. -/
theorem At.resize_last {cur : Iter} {off : Option Nat} {init : List PktBlock} {tail : PktBlock}
    (h : At cur off (init ++ [tail]) p) (hp : p < sizes (init ++ [tail])) {size : Nat}
    (hnew : p < sizes init + size) : At cur off (init ++ [{ tail with size := size }]) p := by
  obtain ⟨pre, blk, post, k, hsplit, hk, hcur, hoff, rfl⟩ := h.exists_inside hp
  rcases List.eq_nil_or_concat post with rfl | ⟨post', last, rfl⟩
  · obtain ⟨rfl, hlast⟩ := List.append_inj' hsplit rfl
    obtain rfl : tail = blk := by simpa using hlast
    exact .inside init _ [] k rfl (by change k < size; omega) hcur hoff
  · have hinit : init = pre ++ blk :: post' ∧ tail = last := by
      have hall : init ++ [tail] = (pre ++ blk :: post') ++ [last] := by
        rw [hsplit]
        simp
      obtain ⟨hl, hr⟩ := List.append_inj' hall rfl
      exact ⟨hl, by simpa using hr⟩
    rw [hinit.1]
    exact .inside pre blk (post' ++ [{ tail with size := size }]) k (by simp) hk hcur hoff

/-- The last block with `size` bytes in its window. -/
theorem resize_last_holds {B : Nat} {init : List PktBlock} {tail : PktBlock}
    (h : b.Holds B (init ++ [tail])) (size capacity : Nat) (hpos : 1 ≤ size)
    (hfits : tail.data + size ≤ B) (hcap : capacity = sizes init + size)
    (hlt : capacity < 2 ^ 32) :
    PktBuffer.Holds B { b with
        blkList := (init ++ [{ tail with size := size }]).map some, capacity := capacity }
      (init ++ [{ tail with size := size }]) := by
  have htail : tail.Ok B := h.ok tail (by simp)
  have hsizes : sizes (init ++ [{ tail with size := size }]) = capacity := by
    rw [sizes_append, sizes_cons, sizes_nil, hcap]
    rfl
  refine ⟨rfl, ?_, hsizes.symm, by rw [hsizes]; exact hlt⟩
  intro blk hblk
  rcases List.mem_append.mp hblk with hinit | hlast
  · exact h.ok blk (List.mem_append_left _ hinit)
  · rw [List.mem_singleton.mp hlast]
    exact ⟨hpos, hfits, htail.payload⟩

/-- The manager's slack computation on a well-formed buffer. -/
theorem Cursor.backSlack_eq {B : Nat} {init : List PktBlock} {tail : PktBlock}
    (h : b.Holds B (init ++ [tail])) (hB : B < 2 ^ 32) :
    b.backSlack B = slack B tail ∧ b.sizeBeforeLast = sizes init := by
  have htail : tail.Ok B := h.ok tail (by simp)
  constructor
  · simp only [backSlack, h.list, List.map_append, List.map_cons, List.map_nil,
      List.getLast?_concat]
    exact htail.getLastSize (by omega)
  · rw [sizeBeforeLast, h.list, reduceOption_map_some, List.dropLast_concat]

theorem resize_keeps (hm : m.Sound) (h : b.Cursor m.blkSize blks p) (self : BufId)
    (hpos : 1 ≤ n) (hlt : b.capacity + n < 2 ^ 31) (hc : ResizeKeeps m b n) :
    ∃ e m' b', resize m self b n = .ok (e, m', b') ∧ Kept m m' b' := by
  by_cases hsame : n = b.capacity
  · exact ⟨_, _, _, resize_same self hsame, Kept.same hm h⟩
  by_cases hzero : b.capacity = 0
  · have heq := resize_empty (m := m) self hsame hzero
    obtain ⟨ok, m', b', halloc, hk⟩ := alloc_keeps (n := n) hm h hlt false false
    simp only [halloc, ok_bind] at heq
    cases ok with
    | true => exact ⟨_, m', b', heq, hk⟩
    | false => exact ⟨_, m', b', heq, hk⟩
  obtain ⟨init, tail, hblks⟩ := h.holds.exists_last hzero
  subst hblks
  have htail : tail.Ok m.blkSize := h.holds.ok tail (by simp)
  have hfits := htail.fits
  have htpos := htail.pos
  have hB := hm.blkSize_lt
  obtain ⟨hslack, hbefore⟩ := Cursor.backSlack_eq h.holds hB
  have hcap := h.holds.capacity
  have hle := h.le
  have hposeq := h.pos
  rw [sizes_append, sizes_cons, sizes_nil] at hcap
  have hroom : slack m.blkSize tail = m.blkSize - (tail.data + tail.size) := rfl
  rcases hc with hc | hc | ⟨hshrink, hcut, hp⟩ | ⟨hgrow, hc⟩
  · exact absurd hc hsame
  · exact absurd hc hzero
  · -- the last block gets shorter
    rw [hbefore] at hcut
    have hholds := resize_last_holds h.holds (n - sizes init) n (by omega) (by omega)
      (by omega) (by omega)
    refine ⟨_, _, _, resize_shrink self h.holds hcut hshrink, rfl, hm, _, p, hholds, ?_, h.pos, ?_⟩
    · rw [← hholds.capacity]
      change n < 2 ^ 31
      omega
    · exact h.here.resize_last (by rw [sizes_append, sizes_cons, sizes_nil]; omega) (by omega)
  · rw [hslack] at hc
    by_cases hin : n ≤ slack m.blkSize tail
    · -- the last block grows by the new size
      rw [if_pos hin] at hc
      have hsize : add32 tail.size n = tail.size + n := wrapAdd_eq (by omega)
      have hcapacity : add32 b.capacity n = b.capacity + n := wrapAdd_eq (by omega)
      have heq := resize_inPlace self h.holds.list htail (by omega) hzero hgrow hin
      rw [hsize, hcapacity] at heq
      have hholds := resize_last_holds h.holds (tail.size + n) (b.capacity + n) (by omega) (by omega) (by omega) (by omega)
      refine ⟨_, _, _, heq, rfl, hm, _, p, hholds, ?_, h.pos, ?_⟩
      · rw [← hholds.capacity]
        change b.capacity + n < 2 ^ 31
        omega
      · exact h.here.resize_last (by rw [sizes_append, sizes_cons, sizes_nil]; omega) (by omega)
    · -- the slack is taken in and the rest allocated
      rw [if_neg hin] at hc
      have heq := resize_stretch self h.holds.list htail (by omega) hzero hgrow
        (Nat.lt_of_not_le hin)
      have hsize : add32 tail.size (slack m.blkSize tail) = tail.size + slack m.blkSize tail :=
        wrapAdd_eq (by omega)
      have hcapacity : add32 b.capacity (slack m.blkSize tail) =
          b.capacity + slack m.blkSize tail := wrapAdd_eq (by omega)
      have hholds := resize_last_holds h.holds (tail.size + slack m.blkSize tail)
        (b.capacity + slack m.blkSize tail) (by omega) (by omega) (by omega) (by omega)
      have hstretched : b.stretched m.blkSize init tail = { b with
          blkList := (init ++ [{ tail with
            size := tail.size + slack m.blkSize tail }]).map some
          capacity := b.capacity + slack m.blkSize tail } := by
        rw [stretched, hsize, hcapacity]
      rw [hstretched] at heq
      rcases hc with ⟨hfit, henough⟩ | ⟨hshort, hkeep⟩
      · have hneed : sub32 n (b.capacity + slack m.blkSize tail) =
            n - (b.capacity + slack m.blkSize tail) := wrapSub_eq hfit (by omega)
        obtain ⟨m', b', halloc, hk⟩ := alloc_enough hm hholds
          (n := n - (b.capacity + slack m.blkSize tail))
          (by change b.capacity + slack m.blkSize tail + _ < 2 ^ 31; omega) henough false false
        simp only [hneed, halloc, ok_bind, if_true] at heq
        exact ⟨_, m', b', heq, hk⟩
      · obtain ⟨m', halloc, hm', hB'⟩ :=
          alloc_fails hm hholds.capacity_lt hshort false false
        simp only [halloc, ok_bind, Bool.false_eq_true, if_false] at heq
        refine ⟨_, m', _, heq, hB', hm', _, p, Cursor.withRef ⟨hholds, ?_, h.pos, ?_⟩ 1⟩
        · rw [← hholds.capacity]
          change b.capacity + slack m.blkSize tail < 2 ^ 31
          omega
        · rcases hkeep with hkeep | hnone
          · exact h.here.resize_last (by rw [sizes_append, sizes_cons, sizes_nil]; omega)
              (by omega)
          · refine h.here.of_layout ?_
            rw [hnone]
            simp [layout]

/-! ## set_cont_header -/

theorem setContHeader_keeps (hm : m.Sound) (h : b.Cursor m.blkSize blks p) (hne : b.blkList ≠ [])
    (hc : ContKeeps m b n) :
    ∃ e m' b', setContHeader m b n = .ok (e, m', b') ∧ Kept m m' b' := by
  cases hblks : blks with
  | nil =>
    rw [h.holds.list, hblks] at hne
    exact absurd rfl hne
  | cons first rest =>
    rw [hblks] at h
    have hcap := h.holds.capacity
    rw [sizes_cons] at hcap
    by_cases hbig : b.capacity < n ∨ m.blkSize < n
    · exact ⟨_, _, _, setContHeader_tooBig hbig, Kept.same hm h⟩
    by_cases henough : n ≤ first.size
    · exact ⟨_, _, _, setContHeader_enough h.holds.list (by omega) (by omega) henough,
        Kept.same hm h⟩
    · obtain ⟨hslack, hsize⟩ := Cursor.frontSlack_eq h.holds
      have hlong : first.size < n := Nat.lt_of_not_le henough
      have heq := setContHeader_gather h.holds (n := n) (by omega) (by omega) hlong
      have hholds := gather_holds h.holds (n := n) (by omega) (by omega) hlong
      have hgone := gone_payload (n - first.size) fun blk hblk =>
        h.holds.ok blk (List.mem_cons_of_mem _ hblk)
      refine ⟨_, _, _, heq, rfl, hm.release hgone, _, p, hholds, ?_, h.pos, ?_⟩
      · rw [← hholds.capacity]
        change b.capacity < 2 ^ 31
        rw [h.holds.capacity]
        exact h.lt
      · have hpos := h.pos
        rcases hc with hc | hc | hc | hc | ⟨hin, hdata⟩
        · omega
        · omega
        · omega
        · exact h.here.gather hlong (by omega) (by omega)
        · exact h.here.gather_first hlong (by omega) (by omega)

/-! ## merge_buf -/

/-- A cursor before the end does not see what is appended. -/
theorem At.append {cur : Iter} {off : Option Nat} (h : At cur off blks p) (hp : p < sizes blks)
    (more : List PktBlock) : At cur off (blks ++ more) p := by
  obtain ⟨pre, blk, post, k, hsplit, hk, hcur, hoff, rfl⟩ := h.exists_inside hp
  exact .inside pre blk (post ++ more) k (by rw [hsplit]; simp) hk hcur hoff

theorem merge_cursor {B : Nat} {buf : PktBuffer} {blks' : List PktBlock}
    (h : b.Cursor B blks p) (hbuf : buf.Holds B blks')
    (hlt : b.capacity + buf.capacity < 2 ^ 31) (hkeep : b.pos < b.capacity ∨ buf.capacity = 0) :
    PktBuffer.Cursor B { b with
      blkList := b.blkList ++ buf.blkList, capacity := add32 b.capacity buf.capacity }
      (blks ++ blks') p := by
  have hholds := merge_holds h.holds hbuf (by omega)
  refine ⟨hholds, ?_, h.pos, ?_⟩
  · rw [sizes_append, ← h.holds.capacity, ← hbuf.capacity]
    exact hlt
  · rcases hkeep with hin | hzero
    · rw [h.pos, h.holds.capacity] at hin
      exact h.here.append hin blks'
    · rw [hbuf.capacity_eq_zero_iff.mp hzero, List.append_nil]
      exact h.here

end PktBuffer

end TinyTcp.Pkt
