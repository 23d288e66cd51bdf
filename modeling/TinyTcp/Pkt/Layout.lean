/-
TinyTcp.Pkt.Layout — what `alloc`, `alloc_header`, `remove_header` and
`merge_buf` do to the blocks of a well-formed buffer and to the free list.

`takeBlocks_ok` is the loop of `alloc`: with enough bytes in the free list
it takes the first blocks off it and lays `n` bytes out in them
(`Carved`); with too few it ends up with all of them. The other lemmas
give the result of each call as explicit lists of blocks, one lemma for
each way through the call. `Reshaped` collects what all successful calls
have in common: the buffer stays well formed and no block is lost, doubled
or invented.
-/
import TinyTcp.Pkt.Blocks
import Mathlib.Data.List.Perm.Basic

namespace TinyTcp.Pkt

open TinyTcp.Lib

namespace PktManager

/-- The manager with another free list. -/
def withFree (m : PktManager) (free : List PktBlock) : PktManager :=
  { m with pktBlk := { m.pktBlk with items := free.map some } }

variable {m : PktManager} {free : List PktBlock}

@[simp] theorem withFree_blkSize : (m.withFree free).blkSize = m.blkSize := rfl

@[simp] theorem withFree_cap : (m.withFree free).pktBlk.cap = m.pktBlk.cap := rfl

theorem Pool.withFree_self (h : m.Pool free) : m.withFree free = m := by
  simp only [withFree, ← h.items]

theorem pool_withFree (h : ∀ blk ∈ free, blk.payload.length = m.blkSize) :
    (m.withFree free).Pool free := ⟨rfl, h⟩

/-- Releasing blocks there is room for. -/
theorem Pool.release {blks : List PktBlock} (h : m.Pool free)
    (hroom : free.length + blks.length ≤ m.pktBlk.cap) :
    m.releaseAll (blks.map some) = m.withFree (free ++ blks) := releaseAll_eq h hroom

end PktManager

namespace PktBuffer

/-! ## Taking blocks off the free list -/

/-- `new` holds `n` bytes in the first blocks of `free`, `rest` are the
others. `alloc_front` fills a block from the end of its payload, the other
mode from the start. -/
structure Carved (B : Nat) (allocFront : Bool) (n : Nat) (free new rest : List PktBlock) : Prop where
  ok : ∀ blk ∈ new, blk.Ok B
  sizes : sizes new = n
  place : ∀ blk ∈ new, if allocFront then blk.data + blk.size = B else blk.data = 0
  few : new.length * B < n + B
  addrs : (addrs new ++ addrs rest).Perm (addrs free)
  rest : ∀ blk ∈ rest, blk ∈ free

theorem Carved.length {B : Nat} {f : Bool} {n : Nat} {free new rest : List PktBlock}
    (h : Carved B f n free new rest) : new.length + rest.length = free.length := by
  have hlen := h.addrs.length_eq
  simpa [Pkt.addrs] using hlen

theorem Carved.reverse {B : Nat} {f : Bool} {n : Nat} {free new rest : List PktBlock}
    (h : Carved B f n free new rest) : Carved B f n free new.reverse rest := by
  refine ⟨?_, by rw [sizes_reverse, h.sizes], ?_, by rw [List.length_reverse]; exact h.few, ?_,
    h.rest⟩
  · intro blk hblk
    exact h.ok blk (List.mem_reverse.mp hblk)
  · intro blk hblk
    exact h.place blk (List.mem_reverse.mp hblk)
  · have hrev : (Pkt.addrs new.reverse).Perm (Pkt.addrs new) :=
      (List.reverse_perm new).map PktBlock.addr
    exact (hrev.append_right _).trans h.addrs

/-- The block `alloc` makes of a free one for `n` of its bytes. -/
theorem carve_ok {B n : Nat} {blk : PktBlock} (hblk : blk.payload.length = B) (f : Bool)
    (hpos : 1 ≤ n) (hle : n ≤ B) :
    { blk.reset with size := n, data := if f then B - n else 0 }.Ok B := by
  refine ⟨hpos, ?_, hblk⟩
  cases f with
  | true =>
    simp only [if_true]
    omega
  | false =>
    simp only [Bool.false_eq_true, if_false]
    omega

theorem takeBlocks_ok {B : Nat} (hB : 1 ≤ B) (f : Bool) (free : List PktBlock)
    (hfree : ∀ blk ∈ free, blk.payload.length = B) (n : Nat) (hn : n ≤ free.length * B) :
    ∃ new rest, takeBlocks B f (free.map some) n = .ok (true, new, rest.map some) ∧
      Carved B f n free new rest := by
  induction free generalizing n with
  | nil =>
    obtain rfl : n = 0 := by simpa using hn
    exact ⟨[], [], rfl, by simp, rfl, by simp, by simp; omega, by simp, by simp⟩
  | cons blk free ih =>
    cases n with
    | zero =>
      exact ⟨[], blk :: free, rfl, by simp, rfl, by simp, by simp; omega, by simp, by simp⟩
    | succ n =>
      obtain ⟨c, hc⟩ : ∃ c, c = min (n + 1) B := ⟨_, rfl⟩
      have hroom : n + 1 - c ≤ free.length * B := by
        rw [List.length_cons, Nat.succ_mul] at hn
        omega
      obtain ⟨new, rest, htake, hcarved⟩ :=
        ih (fun b hb => hfree b (List.mem_cons_of_mem _ hb)) (n + 1 - c) hroom
      have hblk := carve_ok (hfree blk List.mem_cons_self) f (n := c) (by omega) (by omega)
      refine ⟨{ blk.reset with size := c, data := if f then B - c else 0 } :: new, rest, ?_,
        ?_, ?_, ?_, ?_, ?_, ?_⟩
      · simp only [List.map_cons, takeBlocks, ← hc, htake, ok_bind]
      · intro b hb
        rcases List.mem_cons.mp hb with rfl | hb
        · exact hblk
        · exact hcarved.ok b hb
      · rw [sizes_cons, hcarved.sizes]
        change c + (n + 1 - c) = n + 1
        omega
      · intro b hb
        rcases List.mem_cons.mp hb with rfl | hb
        · cases f with
          | true =>
            change B - c + c = B
            omega
          | false => rfl
        · exact hcarved.place b hb
      · have hfew := hcarved.few
        rw [List.length_cons, Nat.succ_mul]
        -- a last block that is not full leaves nothing to take
        by_cases hfull : B ≤ n + 1
        · omega
        · have hnone : new = [] := by
            have hrest : n + 1 - c = 0 := by omega
            have hlt : new.length * B < 1 * B := by omega
            have hzero := Nat.lt_of_mul_lt_mul_right hlt
            exact List.length_eq_zero_iff.mp (by omega)
          rw [hnone]
          simp only [List.length_nil, Nat.zero_mul]
          omega
      · rw [addrs_cons, addrs_cons, List.cons_append]
        exact hcarved.addrs.cons _
      · intro b hb
        exact List.mem_cons_of_mem _ (hcarved.rest b hb)

/-- With too few bytes in the free list the loop takes all of it. -/
theorem takeBlocks_short {B : Nat} (f : Bool) (free : List PktBlock)
    (hfree : ∀ blk ∈ free, blk.payload.length = B) (n : Nat) (hn : free.length * B < n) :
    ∃ new, takeBlocks B f (free.map some) n = .ok (false, new, []) ∧
      addrs new = addrs free ∧ ∀ blk ∈ new, blk.payload.length = B := by
  induction free generalizing n with
  | nil =>
    cases n with
    | zero => simp at hn
    | succ n => exact ⟨[], rfl, rfl, by simp⟩
  | cons blk free ih =>
    cases n with
    | zero => simp at hn
    | succ n =>
      obtain ⟨c, hc⟩ : ∃ c, c = min (n + 1) B := ⟨_, rfl⟩
      have hshort : free.length * B < n + 1 - c := by
        rw [List.length_cons, Nat.succ_mul] at hn
        omega
      obtain ⟨new, htake, haddrs, hpay⟩ :=
        ih (fun b hb => hfree b (List.mem_cons_of_mem _ hb)) (n + 1 - c) hshort
      refine ⟨{ blk.reset with size := c, data := if f then B - c else 0 } :: new, ?_, ?_, ?_⟩
      · simp only [List.map_cons, takeBlocks, ← hc, htake, ok_bind]
      · rw [addrs_cons, addrs_cons, haddrs]
        rfl
      · intro b hb
        rcases List.mem_cons.mp hb with rfl | hb
        · exact hfree blk List.mem_cons_self
        · exact hpay b hb

/-! ## alloc -/

theorem foldl_pushFront_list (ptrs : List BlkPtr) (b : PktBuffer) :
    ∃ cur, ptrs.foldl pushFront b =
      { b with blkList := ptrs.reverse ++ b.blkList, curBlk := cur } := by
  induction ptrs generalizing b with
  | nil => exact ⟨b.curBlk, rfl⟩
  | cons ptr ptrs ih =>
    obtain ⟨cur, heq⟩ := ih (b.pushFront ptr)
    refine ⟨cur, ?_⟩
    rw [List.foldl_cons, heq]
    simp [pushFront]

theorem foldl_pushBack_list (ptrs : List BlkPtr) (b : PktBuffer) :
    ptrs.foldl pushBack b = { b with blkList := b.blkList ++ ptrs } := by
  induction ptrs generalizing b with
  | nil => simp
  | cons ptr ptrs ih =>
    rw [List.foldl_cons, ih]
    simp [pushBack]

/-- New blocks in front of the old ones or behind them. -/
def joined (insertFront : Bool) (new old : List PktBlock) : List PktBlock :=
  if insertFront then new ++ old else old ++ new

/-- The buffer `alloc` leaves behind. -/
def allocated (b : PktBuffer) (n : Nat) (blks : List PktBlock) : PktBuffer :=
  rewound { b with capacity := add32 b.capacity n, blkList := blks.map some, ref := 1 } blks

variable {m : PktManager} {b : PktBuffer} {free blks : List PktBlock} {n : Nat}

/-- A successful `alloc`: `n` bytes in new blocks, the cursor at the front. -/
theorem alloc_ok (hpool : m.Pool free) (hB : 1 ≤ m.blkSize) (hlist : b.blkList = blks.map some)
    (hn : n ≤ free.length * m.blkSize) (f ins : Bool) :
    ∃ new rest, Carved m.blkSize f n free new rest ∧
      alloc m b n f ins =
        .ok (true, m.withFree rest, b.allocated n (joined ins new blks)) := by
  obtain ⟨got, rest, htake, hcarved⟩ := takeBlocks_ok hB f free hpool.payload n hn
  -- the order in which the blocks end up in the list
  refine ⟨if f then got.reverse else got, rest, ?_, ?_⟩
  · cases f with
    | true => exact hcarved.reverse
    | false => exact hcarved
  · have hreset : ∀ (cur : Iter) (l : List PktBlock), resetAccess { b with
        capacity := add32 b.capacity n, blkList := l.map some, curBlk := cur, ref := 1 } =
        .ok (rewound { b with
          capacity := add32 b.capacity n, blkList := l.map some, ref := 1 } l) :=
      fun cur l => resetAccess_eq rfl
    simp only [alloc, hpool.items, htake, ok_bind, Bool.not_true, Bool.false_eq_true, if_false]
    cases ins with
    | true =>
      cases f with
      | true =>
        obtain ⟨cur, hfold⟩ := foldl_pushFront_list (got.map some)
          { b with capacity := add32 b.capacity n, ref := 1 }
        have hl : (got.map some).reverse ++ b.blkList = (got.reverse ++ blks).map some := by
          simp [hlist]
        simp only [if_true, hfold, hl, hreset, ok_bind, joined]
        rfl
      | false =>
        obtain ⟨cur, hfold⟩ := foldl_pushFront_list (got.reverse.map some)
          { b with capacity := add32 b.capacity n, ref := 1 }
        have hl : (got.reverse.map some).reverse ++ b.blkList = (got ++ blks).map some := by
          simp [hlist]
        simp only [if_true, Bool.false_eq_true, if_false, hfold, hl, hreset, ok_bind, joined]
        rfl
    | false =>
      have hcur := hreset b.curBlk
      cases f with
      | true =>
        have hl : b.blkList ++ got.reverse.map some = (blks ++ got.reverse).map some := by
          simp [hlist]
        simp only [if_true, Bool.false_eq_true, if_false, foldl_pushBack_list, hl, joined]
        simp only [hcur, ok_bind]
        rfl
      | false =>
        have hl : b.blkList ++ got.map some = (blks ++ got).map some := by
          simp [hlist]
        simp only [Bool.false_eq_true, if_false, foldl_pushBack_list, hl, joined]
        simp only [hcur, ok_bind]
        rfl

/-- A failed `alloc` gives all blocks back and leaves the buffer as it was. -/
theorem alloc_short (hpool : m.Pool free) (hcap : free.length ≤ m.pktBlk.cap)
    (hlt : b.capacity < 2 ^ 32) (hn : free.length * m.blkSize < n) (f ins : Bool) :
    ∃ free', addrs free' = addrs free ∧ (∀ blk ∈ free', blk.payload.length = m.blkSize) ∧
      alloc m b n f ins = .ok (false, m.withFree free', { b with ref := 1 }) := by
  obtain ⟨got, htake, haddrs, hpay⟩ := takeBlocks_short f free hpool.payload n hn
  refine ⟨got, haddrs, hpay, ?_⟩
  have hlen : got.length = free.length := by simpa [addrs] using congrArg List.length haddrs
  have hempty : (m.withFree []).Pool [] := ⟨rfl, by simp⟩
  have hgot : ([] : List PktBlock).length + got.length ≤ (m.withFree []).pktBlk.cap := by
    simpa [hlen] using hcap
  have hrel := hempty.release hgot
  have hcapacity : sub32 (add32 b.capacity n) n = b.capacity := wrapSub_wrapAdd hlt n
  have hgive : (m.withFree []).releaseAll (got.map some) = m.withFree got := by
    rw [hrel]
    rfl
  simp only [PktManager.withFree, List.map_nil] at hgive
  simp only [alloc, hpool.items, htake, ok_bind, Bool.not_false, if_true, hcapacity, hgive]
  rfl

/-- What every successful call has in common: full payloads in the free
list, a well-formed buffer, and the same blocks in the two together. -/
structure Reshaped (m : PktManager) (free blks : List PktBlock) (b' : PktBuffer)
    (free' blks' : List PktBlock) : Prop where
  payload : ∀ blk ∈ free', blk.payload.length = m.blkSize
  holds : b'.Holds m.blkSize blks'
  addrs : (addrs free' ++ addrs blks').Perm (addrs free ++ addrs blks)

theorem mem_joined {ins : Bool} {new old : List PktBlock} {blk : PktBlock} :
    blk ∈ joined ins new old ↔ blk ∈ new ∨ blk ∈ old := by
  cases ins with
  | true => exact List.mem_append
  | false => exact List.mem_append.trans or_comm

theorem sizes_joined (ins : Bool) (new old : List PktBlock) :
    sizes (joined ins new old) = sizes old + sizes new := by
  cases ins with
  | true => rw [joined, if_pos rfl, sizes_append, Nat.add_comm]
  | false => rw [joined, if_neg Bool.false_ne_true, sizes_append]

theorem addrs_joined (ins : Bool) (new old : List PktBlock) :
    (addrs (joined ins new old)).Perm (addrs new ++ addrs old) := by
  cases ins with
  | true => rw [joined, if_pos rfl, addrs_append]
  | false =>
    rw [joined, if_neg Bool.false_ne_true, addrs_append]
    exact List.perm_append_comm

theorem alloc_reshaped (hpool : m.Pool free) (hb : b.Holds m.blkSize blks)
    (hlt : b.capacity + n < 2 ^ 32) {f : Bool} {new rest : List PktBlock}
    (hcarved : Carved m.blkSize f n free new rest) (ins : Bool) :
    Reshaped m free blks (b.allocated n (joined ins new blks)) rest (joined ins new blks) := by
  have hsizes : sizes (joined ins new blks) = b.capacity + n := by
    rw [sizes_joined, hcarved.sizes, hb.capacity]
  refine ⟨fun blk hblk => hpool.payload blk (hcarved.rest blk hblk), ?_, ?_⟩
  · refine Holds.rewound ⟨rfl, ?_, ?_, ?_⟩
    · intro blk hblk
      exact (mem_joined.mp hblk).elim (hcarved.ok blk) (hb.ok blk)
    · rw [hsizes]
      exact wrapAdd_eq hlt
    · rw [hsizes]
      exact hlt
  · have hleft : (addrs rest ++ (addrs new ++ addrs blks)).Perm
        (addrs new ++ addrs rest ++ addrs blks) := by
      rw [← List.append_assoc]
      exact List.perm_append_comm.append_right _
    exact ((addrs_joined ins new blks).append_left _).trans
      (hleft.trans (hcarved.addrs.append_right _))

/-! ## alloc_header -/

/-- A block whose window takes in the `n` bytes in front of it. -/
theorem grow_front_ok {B : Nat} {blk : PktBlock} (h : blk.Ok B) (hn : n ≤ blk.data) :
    { blk with data := blk.data - n, size := blk.size + n }.Ok B := by
  have hpos := h.pos
  have hfits := h.fits
  refine ⟨?_, ?_, h.payload⟩
  · change 1 ≤ blk.size + n
    omega
  · change blk.data - n + (blk.size + n) ≤ B
    omega

theorem grow_front_window {blk : PktBlock} (hn : n ≤ blk.data) :
    { blk with data := blk.data - n, size := blk.size + n }.window =
      slice blk.payload (blk.data - n) n ++ blk.window := by
  have hdata : blk.data - n + n = blk.data := by omega
  have hadd := slice_add blk.payload (blk.data - n) n blk.size
  rw [hdata] at hadd
  change slice blk.payload (blk.data - n) (blk.size + n) = _
  rw [Nat.add_comm blk.size n, hadd]
  rfl

variable {first : PktBlock} {rest : List PktBlock}

theorem allocHeader_empty (hlist : b.blkList = []) (n : Nat) (isCont : Bool) :
    allocHeader m b n isCont = .ok (.empty, m, b) := by
  simp only [allocHeader, hlist]

/-- The slack in front of the first window is enough. -/
theorem allocHeader_inPlace (hlist : b.blkList = (first :: rest).map some) (hn : n ≤ first.data)
    (isCont : Bool) :
    allocHeader m b n isCont = .ok (.ok, m, { b with
      blkList := ({ first with
        data := first.data - n, size := add32 first.size n } :: rest).map some
      capacity := add32 b.capacity n }) := by
  rw [List.map_cons] at hlist
  simp only [allocHeader, hlist, if_pos (show first.data ≥ n from hn)]
  rfl

theorem allocHeader_tooBig (hlist : b.blkList = (first :: rest).map some) (hn : first.data < n)
    (hbig : m.blkSize < n) : allocHeader m b n true = .ok (.size, m, b) := by
  rw [List.map_cons] at hlist
  simp only [allocHeader, hlist, if_neg (show ¬ first.data ≥ n by omega), if_true,
    if_pos (show n > m.blkSize from hbig)]

/-- A contiguous header goes into a block of its own. -/
theorem allocHeader_newBlock {blk : PktBlock} {free' : List PktBlock}
    (hlist : b.blkList = (first :: rest).map some) (hn : first.data < n) (hbig : n ≤ m.blkSize)
    (hpool : m.Pool (blk :: free')) :
    allocHeader m b n true = .ok (.ok, m.withFree free', { b with
      blkList := ({ blk.reset with data := m.blkSize - n, size := n } :: first :: rest).map some
      curBlk := b.curBlk.pushed, capacity := add32 b.capacity n }) := by
  have hitems := hpool.items
  rw [List.map_cons] at hlist hitems
  simp only [allocHeader, hlist, if_neg (show ¬ first.data ≥ n by omega), if_true,
    if_neg (show ¬ n > m.blkSize by omega), PktManager.getPktblock, Fifo.pop, hitems, ok_bind,
    pushFront]
  rfl

/-- Without a free block the null pointer ends up in the list. -/
theorem allocHeader_noBlock (hlist : b.blkList = (first :: rest).map some) (hn : first.data < n)
    (hbig : n ≤ m.blkSize) (hpool : m.Pool []) :
    allocHeader m b n true = .ok (.none, m, b.pushFront none) := by
  have hitems := hpool.items
  rw [List.map_cons] at hlist
  rw [List.map_nil] at hitems
  simp only [allocHeader, hlist, if_neg (show ¬ first.data ≥ n by omega), if_true,
    if_neg (show ¬ n > m.blkSize by omega), PktManager.getPktblock, Fifo.pop, hitems, ok_bind]

/-- The first block with its slack taken in. -/
def flushed (first : PktBlock) : PktBlock :=
  { first with data := 0, size := add32 first.size first.data }

/-- The buffer when a header that may be split has used up the slack. -/
def flushFront (b : PktBuffer) (first : PktBlock) (rest : List PktBlock) : PktBuffer :=
  { b with
    blkList := (flushed first :: rest).map some, capacity := add32 b.capacity first.data }

/-- A header that may be split: the slack first, the rest in new blocks. -/
theorem allocHeader_split (hlist : b.blkList = (first :: rest).map some) (hn : first.data < n) :
    allocHeader m b n false = (do
      let (ok, m, b) ← alloc m (b.flushFront first rest) (n - first.data) true true
      if ok then .ok (.ok, m, b) else .ok (.none, m, b)) := by
  rw [List.map_cons] at hlist
  simp only [allocHeader, hlist, if_neg (show ¬ first.data ≥ n by omega), Bool.false_eq_true,
    if_false]
  rfl

/-- The four ways of `alloc_header` that succeed keep the invariant; first
the one that takes the slack in. -/
theorem inPlace_reshaped (hpool : m.Pool free) (hb : b.Holds m.blkSize (first :: rest))
    (hlt : b.capacity + n < 2 ^ 32) (hn : n ≤ first.data) :
    Reshaped m free (first :: rest) { b with
      blkList := ({ first with
        data := first.data - n, size := add32 first.size n } :: rest).map some
      capacity := add32 b.capacity n } free
      ({ first with data := first.data - n, size := add32 first.size n } :: rest) := by
  have hcap := hb.capacity
  rw [sizes_cons] at hcap
  have hsize : add32 first.size n = first.size + n := wrapAdd_eq (by omega)
  rw [hsize]
  refine ⟨hpool.payload, ⟨rfl, ?_, ?_, ?_⟩, List.Perm.refl _⟩
  · intro blk hblk
    rcases List.mem_cons.mp hblk with rfl | hblk
    · exact grow_front_ok (hb.ok first List.mem_cons_self) hn
    · exact hb.ok blk (List.mem_cons_of_mem _ hblk)
  · rw [sizes_cons, add32, wrapAdd_eq hlt]
    change b.capacity + n = first.size + n + sizes rest
    omega
  · rw [sizes_cons]
    change first.size + n + sizes rest < 2 ^ 32
    omega

theorem newBlock_reshaped {blk : PktBlock} {free' : List PktBlock}
    (hpool : m.Pool (blk :: free')) (hb : b.Holds m.blkSize blks)
    (hlt : b.capacity + n < 2 ^ 32) (hpos : 1 ≤ n) (hbig : n ≤ m.blkSize) :
    Reshaped m (blk :: free') blks { b with
      blkList := ({ blk.reset with data := m.blkSize - n, size := n } :: blks).map some
      curBlk := b.curBlk.pushed, capacity := add32 b.capacity n } free'
      ({ blk.reset with data := m.blkSize - n, size := n } :: blks) := by
  have hcap := hb.capacity
  refine ⟨fun blk' h => hpool.payload blk' (List.mem_cons_of_mem _ h), ⟨rfl, ?_, ?_, ?_⟩, ?_⟩
  · intro blk' hblk'
    rcases List.mem_cons.mp hblk' with rfl | hblk'
    · exact carve_ok (hpool.payload blk List.mem_cons_self) true hpos hbig
    · exact hb.ok blk' hblk'
  · rw [sizes_cons, add32, wrapAdd_eq hlt]
    change b.capacity + n = n + sizes blks
    omega
  · rw [sizes_cons]
    change n + sizes blks < 2 ^ 32
    omega
  · exact List.perm_middle

theorem flushFront_holds (hb : b.Holds m.blkSize (first :: rest))
    (hlt : b.capacity + first.data < 2 ^ 32) :
    (b.flushFront first rest).Holds m.blkSize (flushed first :: rest) := by
  have hcap := hb.capacity
  rw [sizes_cons] at hcap
  have hsize : add32 first.size first.data = first.size + first.data := wrapAdd_eq (by omega)
  refine ⟨rfl, ?_, ?_, ?_⟩
  · intro blk hblk
    rcases List.mem_cons.mp hblk with rfl | hblk
    · have hok := grow_front_ok (hb.ok first List.mem_cons_self) (Nat.le_refl first.data)
      rw [Nat.sub_self] at hok
      rw [flushed, hsize]
      exact hok
    · exact hb.ok blk (List.mem_cons_of_mem _ hblk)
  · change add32 b.capacity first.data = sizes (flushed first :: rest)
    rw [sizes_cons, add32, wrapAdd_eq hlt, flushed, hsize]
    change b.capacity + first.data = first.size + first.data + sizes rest
    omega
  · rw [sizes_cons, flushed, hsize]
    change first.size + first.data + sizes rest < 2 ^ 32
    omega

theorem flushed_window (hlt : first.size + first.data < 2 ^ 32) :
    (flushed first).window = slice first.payload 0 first.data ++ first.window := by
  have hwin := grow_front_window (Nat.le_refl first.data)
  rw [Nat.sub_self] at hwin
  rw [flushed, add32, wrapAdd_eq hlt]
  exact hwin

/-! ## remove_header -/

/-- The blocks that are emptied when the first `n` bytes go, and the blocks
that keep data. -/
def cutFront : Nat → List PktBlock → List PktBlock × List PktBlock
  | 0, blks => ([], blks)
  | _ + 1, [] => ([], [])
  | n + 1, blk :: blks =>
      if n + 1 < blk.size then
        ([], { blk with data := blk.data + (n + 1), size := blk.size - (n + 1) } :: blks)
      else (blk :: (cutFront (n + 1 - blk.size) blks).1, (cutFront (n + 1 - blk.size) blks).2)

/-- A block that has lost the first bytes of its window. -/
theorem trim_ok {B : Nat} {blk : PktBlock} (h : blk.Ok B) (hn : n < blk.size) :
    { blk with data := blk.data + n, size := blk.size - n }.Ok B := by
  have hfits := h.fits
  refine ⟨?_, ?_, h.payload⟩
  · change 1 ≤ blk.size - n
    omega
  · change blk.data + n + (blk.size - n) ≤ B
    omega

theorem trim_window {B : Nat} {blk : PktBlock} (h : blk.Ok B) (hn : n ≤ blk.size) :
    { blk with data := blk.data + n, size := blk.size - n }.window = blk.window.drop n := by
  have hfits := h.fits
  have hpay := h.payload
  have hsplit := slice_add blk.payload blk.data n (blk.size - n)
  have hsum : n + (blk.size - n) = blk.size := by omega
  have hlen : (slice blk.payload blk.data n).length = n := length_slice_of_le (by omega)
  rw [hsum] at hsplit
  rw [PktBlock.window, PktBlock.window, hsplit, List.drop_left' hlen]

theorem cutFront_addrs (n : Nat) (blks : List PktBlock) (hn : n ≤ sizes blks) :
    addrs (cutFront n blks).1 ++ addrs (cutFront n blks).2 = addrs blks := by
  induction blks generalizing n with
  | nil =>
    obtain rfl : n = 0 := by simpa using hn
    rfl
  | cons blk blks ih =>
    rw [sizes_cons] at hn
    cases n with
    | zero => rfl
    | succ n =>
      rw [cutFront]
      split
      · rfl
      · rw [addrs_cons, List.cons_append, ih _ (by omega), addrs_cons]

theorem cutFront_gone_mem (n : Nat) (blks : List PktBlock) :
    ∀ blk ∈ (cutFront n blks).1, blk ∈ blks := by
  induction blks generalizing n with
  | nil =>
    cases n with
    | zero => simp [cutFront]
    | succ n => simp [cutFront]
  | cons blk blks ih =>
    cases n with
    | zero => simp [cutFront]
    | succ n =>
      rw [cutFront]
      split
      · simp
      · intro b hb
        rcases List.mem_cons.mp hb with rfl | hb
        · exact List.mem_cons_self
        · exact List.mem_cons_of_mem _ (ih _ b hb)

theorem cutFront_ok {B : Nat} (n : Nat) (blks : List PktBlock) (hok : ∀ blk ∈ blks, blk.Ok B) :
    ∀ blk ∈ (cutFront n blks).2, blk.Ok B := by
  induction blks generalizing n with
  | nil =>
    cases n with
    | zero => simp [cutFront]
    | succ n => simp [cutFront]
  | cons blk blks ih =>
    have hrest : ∀ b ∈ blks, b.Ok B := fun b hb => hok b (List.mem_cons_of_mem _ hb)
    cases n with
    | zero => exact hok
    | succ n =>
      rw [cutFront]
      split
      · next hin =>
        intro b hb
        rcases List.mem_cons.mp hb with rfl | hb
        · exact trim_ok (hok blk List.mem_cons_self) hin
        · exact hrest b hb
      · exact ih _ hrest

theorem cutFront_sizes (n : Nat) (blks : List PktBlock) :
    sizes (cutFront n blks).2 = sizes blks - n := by
  induction blks generalizing n with
  | nil =>
    cases n with
    | zero => rfl
    | succ n => simp [cutFront]
  | cons blk blks ih =>
    cases n with
    | zero => rfl
    | succ n =>
      rw [cutFront, sizes_cons]
      split
      · rw [sizes_cons]
        change blk.size - (n + 1) + sizes blks = _
        omega
      · rw [ih]
        omega

theorem cutFront_content {B : Nat} (n : Nat) (blks : List PktBlock)
    (hok : ∀ blk ∈ blks, blk.Ok B) :
    content (cutFront n blks).2 = (content blks).drop n := by
  induction blks generalizing n with
  | nil =>
    cases n with
    | zero => rfl
    | succ n => rfl
  | cons blk blks ih =>
    have hblk : blk.Ok B := hok blk List.mem_cons_self
    have hwin := hblk.window_length
    cases n with
    | zero => rfl
    | succ n =>
      rw [cutFront, content_cons]
      split
      · next hin =>
        rw [content_cons, trim_window hblk (by omega), List.drop_append_of_le_length (by omega)]
      · have hnil : blk.window.drop (n + 1) = [] := List.drop_of_length_le (by omega)
        rw [ih _ fun b hb => hok b (List.mem_cons_of_mem _ hb), List.drop_append, hwin, hnil,
          List.nil_append]

/-- The loop of `remove_header` cuts off the first `n` bytes and releases
the blocks it empties. -/
theorem removeLoop_eq (blks : List PktBlock) (capacity n : Nat) (hn : n ≤ sizes blks)
    (hcap : sizes blks ≤ capacity) (hlt : capacity < 2 ^ 32) :
    removeLoop (blks.map some) capacity n =
      .ok ((cutFront n blks).2.map some, capacity - n, (cutFront n blks).1.map some) := by
  induction blks generalizing capacity n with
  | nil =>
    obtain rfl : n = 0 := by simpa using hn
    rfl
  | cons blk blks ih =>
    rw [sizes_cons] at hn hcap
    cases n with
    | zero => rfl
    | succ n =>
      by_cases hin : n + 1 < blk.size
      · have hcapacity : sub32 capacity (n + 1) = capacity - (n + 1) :=
          wrapSub_eq (by omega) (by omega)
        simp only [List.map_cons, removeLoop, cutFront, if_pos hin, hcapacity, List.map_nil]
      · have hcapacity : sub32 capacity blk.size = capacity - blk.size :=
          wrapSub_eq (by omega) (by omega)
        have hsum : capacity - blk.size - (n + 1 - blk.size) = capacity - (n + 1) := by omega
        have hnext := ih (capacity - blk.size) (n + 1 - blk.size) (by omega) (by omega) (by omega)
        simp only [List.map_cons, removeLoop, cutFront, if_neg hin, hcapacity, hnext, ok_bind,
          hsum]

/-- Of the blocks of a buffer, no more are emptied than there are. -/
theorem cutFront_gone_length (n : Nat) (blks : List PktBlock) (hn : n ≤ sizes blks) :
    (cutFront n blks).1.length ≤ blks.length := by
  have hcount := congrArg List.length (cutFront_addrs n blks hn)
  simp only [addrs, List.length_append, List.length_map] at hcount
  omega

theorem removeHeader_eq (m : PktManager) {B : Nat} (hb : b.Holds B blks) (hne : blks ≠ [])
    (hn : n ≤ b.capacity) :
    removeHeader m b n = .ok (.ok, m.releaseAll ((cutFront n blks).1.map some), { b with
      blkList := (cutFront n blks).2.map some, capacity := b.capacity - n
      curBlk := b.curBlk.erased 0 (cutFront n blks).1.length }) := by
  rw [hb.capacity] at hn
  have hlist : b.blkList.length ≠ 0 := by
    rw [hb.list, List.length_map]
    exact fun h => hne (List.length_eq_zero_iff.mp h)
  rw [removeHeader, if_neg hlist, hb.list,
    removeLoop_eq blks b.capacity n hn (Nat.le_of_eq hb.capacity.symm) hb.capacity_lt]
  simp only [ok_bind, List.length_map]

theorem removeHeader_ok (hpool : m.Pool free) (hb : b.Holds m.blkSize blks) (hne : blks ≠ [])
    (hroom : free.length + blks.length ≤ m.pktBlk.cap) (hn : n ≤ b.capacity) :
    removeHeader m b n = .ok (.ok, m.withFree (free ++ (cutFront n blks).1), { b with
      blkList := (cutFront n blks).2.map some, capacity := b.capacity - n
      curBlk := b.curBlk.erased 0 (cutFront n blks).1.length }) := by
  have hgone := cutFront_gone_length n blks (by rw [← hb.capacity]; exact hn)
  have hrelease : m.releaseAll ((cutFront n blks).1.map some) =
      m.withFree (free ++ (cutFront n blks).1) := hpool.release (by omega)
  rw [removeHeader_eq m hb hne hn, hrelease]

theorem removeHeader_reshaped (hpool : m.Pool free) (hb : b.Holds m.blkSize blks)
    (hn : n ≤ b.capacity) :
    Reshaped m free blks { b with
      blkList := (cutFront n blks).2.map some, capacity := b.capacity - n
      curBlk := b.curBlk.erased 0 (cutFront n blks).1.length }
      (free ++ (cutFront n blks).1) (cutFront n blks).2 := by
  have hlt := hb.lt
  rw [hb.capacity] at hn
  refine ⟨?_, ⟨rfl, cutFront_ok n blks hb.ok, ?_, ?_⟩, ?_⟩
  · intro blk hblk
    rcases List.mem_append.mp hblk with hfree | hblk
    · exact hpool.payload blk hfree
    · exact (hb.ok blk (cutFront_gone_mem n blks blk hblk)).payload
  · rw [cutFront_sizes, hb.capacity]
  · rw [cutFront_sizes]
    omega
  · rw [addrs_append, List.append_assoc, cutFront_addrs n blks hn]

/-! ## merge_buf -/

theorem merge_holds {B : Nat} {buf : PktBuffer} {blks' : List PktBlock} (hb : b.Holds B blks)
    (hbuf : buf.Holds B blks') (hlt : b.capacity + buf.capacity < 2 ^ 32) :
    PktBuffer.Holds B { b with
      blkList := b.blkList ++ buf.blkList, capacity := add32 b.capacity buf.capacity }
      (blks ++ blks') := by
  have hcap : b.capacity + buf.capacity = sizes (blks ++ blks') := by
    rw [hb.capacity, hbuf.capacity, sizes_append]
  refine ⟨?_, ?_, ?_, ?_⟩
  · rw [hb.list, hbuf.list, List.map_append]
  · intro blk hblk
    exact (List.mem_append.mp hblk).elim (hb.ok blk) (hbuf.ok blk)
  · rw [← hcap]
    exact wrapAdd_eq hlt
  · rw [← hcap]
    exact hlt

end PktBuffer

end TinyTcp.Pkt
