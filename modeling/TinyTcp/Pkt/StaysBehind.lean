/-
TinyTcp.Pkt.StaysBehind — the bounds of all accesses over whole runs.

For each operation that moves bytes or blocks under the cursor there is a
condition on the state before the call (`HeaderBehind` and the others)
under which the buffer is `Behind` afterwards. They ask for less than that
the cursor names byte `m_pos`: it may lag, and at the end of the packet it
does not count.

`accesses_proceed_run` is the run theorem: in every state of a run whose
steps all meet `StaysBehind`, every access call returns, and an accepted one
moves bytes of a window in every round. `merged_at_end` is a packet that
was read to its end before another one was merged into it.
-/
import TinyTcp.Pkt.Behind
import TinyTcp.Pkt.Coherence

namespace TinyTcp.Pkt

open TinyTcp.Lib

namespace PktBuffer

/-! ## Conditions -/

/-- `alloc_header` does nothing, resets the cursor, or puts the new bytes in
front of a cursor that lags by as many. -/
def HeaderBehind (m : PktManager) (b : PktBuffer) (size : Nat) (isCont : Bool) : Prop :=
  b.blkList = [] ∨ size = 0 ∨
    if size ≤ b.frontSlack then ∃ q ∈ b.cursorByte, q + size ≤ b.pos
    else if isCont then
      m.blkSize < size ∨ (m.pktBlk.items ≠ [] ∧ ∃ q ∈ b.cursorByte, q + size ≤ b.pos)
    else
      size - b.frontSlack ≤ m.freeBytes ∨ b.frontSlack = 0 ∨
        ∃ q ∈ b.cursorByte, q + b.frontSlack ≤ b.pos

/-- `remove_header` leaves `m_pos` at the new end, or before it and takes no
byte the cursor has in front of it. -/
def RemoveBehind (b : PktBuffer) (size : Nat) : Prop :=
  size = 0 ∨ b.pos + size = b.capacity ∨
    (b.pos + size < b.capacity ∧ ∃ q ∈ b.cursorByte, size ≤ q)

/-- `set_cont_header` does nothing, `m_pos` is at the end, the cursor is behind
the gathered bytes, or in a first window that moves away from it by less
than it lags. -/
def ContBehind (m : PktManager) (b : PktBuffer) (size : Nat) : Prop :=
  b.capacity < size ∨ m.blkSize < size ∨ size ≤ b.frontSize ∨ b.pos = b.capacity ∨
    ∃ q ∈ b.cursorByte, size ≤ q ∨
      (q < b.frontSize ∧ b.frontSlack + q < size ∧ b.frontSlack + q ≤ b.pos)

instance (m : PktManager) (b : PktBuffer) (size : Nat) (isCont : Bool) :
    Decidable (HeaderBehind m b size isCont) := by
  unfold HeaderBehind
  infer_instance

instance (b : PktBuffer) (size : Nat) : Decidable (RemoveBehind b size) := by
  unfold RemoveBehind
  infer_instance

instance (m : PktManager) (b : PktBuffer) (size : Nat) : Decidable (ContBehind m b size) := by
  unfold ContBehind
  infer_instance

/-- What the operations leave behind. -/
structure Still (m m' : PktManager) (b' : PktBuffer) : Prop where
  blkSize : m'.blkSize = m.blkSize
  sound : m'.Sound
  steady : b'.Steady m.blkSize

/-! ## The cursor under moving blocks -/

variable {cur : Iter} {off : Option Nat} {first : PktBlock} {rest blks : List PktBlock} {q n : Nat}

/-- The first window grows to the front. -/
theorem At.grow_front (h : At cur off (first :: rest) q) (hn : n ≤ first.data) :
    At cur off ({ first with data := first.data - n, size := first.size + n } :: rest) (q + n) := by
  obtain ⟨grown, hgrown⟩ : ∃ blk : PktBlock,
      blk = { first with data := first.data - n, size := first.size + n } := ⟨_, rfl⟩
  have hsize : grown.size = first.size + n := by rw [hgrown]
  have hdata : grown.data = first.data - n := by rw [hgrown]
  rw [← hgrown]
  cases h with
  | inside pre blk post k hsplit hk hcur hoff =>
    cases pre with
    | nil =>
      obtain ⟨rfl, rfl⟩ := List.cons.inj hsplit
      have hoff' : off = some (grown.data + (k + n)) := by
        rw [hoff, hdata]
        exact congrArg some (by omega)
      exact .of_inside (List.nil_append _).symm (by omega) hcur hoff' (by simp)
    | cons b pre =>
      obtain ⟨rfl, rfl⟩ := List.cons.inj hsplit
      refine .of_inside (List.cons_append ..).symm hk hcur hoff ?_
      simp only [sizes_cons, hsize]
      omega
  | atEnd hcur hoff =>
    refine .of_end hcur hoff ?_
    simp only [sizes_cons, hsize]
    omega

/-- A block is put in front of all. -/
theorem At.pushed (h : At cur off blks q) (blk : PktBlock) :
    At cur.pushed off (blk :: blks) (q + blk.size) := by
  cases h with
  | inside pre blk' post k hsplit hk hcur hoff =>
    have hsplit' : blk :: blks = (blk :: pre) ++ blk' :: post := by rw [hsplit, List.cons_append]
    refine .of_inside hsplit' hk ?_ hoff ?_
    · rw [hcur]
      rfl
    · rw [sizes_cons]
      omega
  | atEnd hcur hoff =>
    refine .of_end ?_ hoff ?_
    · rw [hcur]
      rfl
    · rw [sizes_cons]
      omega

/-- The first bytes are cut off, none of them behind the cursor. -/
theorem At.cutFront (h : At cur off blks q) (hn : n ≤ q) :
    At (cur.erased 0 (Pkt.PktBuffer.cutFront n blks).1.length) off
      (Pkt.PktBuffer.cutFront n blks).2 (q - n) := by
  cases h with
  | inside pre blk post k hsplit hk hcur hoff =>
    obtain ⟨pre', blk', k', hsplit', hdata, hk', hsum, hlen⟩ := cutFront_split n pre blk post k hn hk
    rw [hsplit]
    refine .of_inside hsplit' hk' ?_ (by rw [hdata]; exact hoff) (by omega)
    rw [hcur, Iter.erased, if_neg (by omega), if_neg (by omega)]
    exact congrArg Iter.at (by omega)
  | atEnd hcur hoff =>
    refine .of_end ?_ hoff (cutFront_sizes n blks).symm
    rw [hcur]
    rfl

/-! ## One operation -/

variable {m m' : PktManager} {b b' : PktBuffer} {e : NetErr}

theorem Steady.withRef {B : Nat} (h : b.Steady B) (r : UInt32) :
    PktBuffer.Steady B { b with ref := r } := by
  obtain ⟨blks, hb⟩ := h.holds
  exact ⟨⟨blks, hb.list, hb.ok, hb.capacity, hb.lt⟩, h.behind.le, h.behind.cursor⟩

theorem Still.same (hm : m.Sound) (h : b.Steady m.blkSize) : Still m m b := ⟨rfl, hm, h⟩

theorem alloc_rewinds_still (hm : m.Sound) (hb : b.Holds m.blkSize blks)
    (hlt : b.capacity + n < 2 ^ 32) (hn : n ≤ m.freeBytes) (f ins : Bool) :
    ∃ m' b', alloc m b n f ins = .ok (true, m', b') ∧ Still m m' b' := by
  obtain ⟨m', blks', heq, hm', hB, hholds, hsizes⟩ := alloc_rewinds hm hb hlt hn f ins
  refine ⟨m', _, heq, hB, hm', hholds.steady (Nat.zero_le _) fun _ => ?_⟩
  exact ⟨0, Nat.le_refl 0, rewound_at hholds.ok _⟩

theorem alloc_still (hm : m.Sound) (h : b.Steady m.blkSize) (hlt : b.capacity + n < 2 ^ 32)
    (f ins : Bool) : ∃ ok m' b', alloc m b n f ins = .ok (ok, m', b') ∧ Still m m' b' := by
  obtain ⟨blks, hb⟩ := h.holds
  by_cases hn : n ≤ m.freeBytes
  · obtain ⟨m', b', heq, hs⟩ := alloc_rewinds_still hm hb hlt hn f ins
    exact ⟨true, m', b', heq, hs⟩
  · obtain ⟨m', heq, hm', hB⟩ := alloc_fails hm hb.capacity_lt (Nat.lt_of_not_le hn) f ins
    exact ⟨false, m', _, heq, hB, hm', h.withRef 1⟩

/-- New bytes in front of a cursor that lags by as many. -/
theorem Holds.steady_front {B : Nat} {blks' : List PktBlock} (hb : b.Holds B blks)
    (h : b.Behind) (hb' : b'.Holds B blks') (hpos : b'.pos = b.pos)
    (hcap : b'.capacity = b.capacity + n)
    (hlag : n = 0 ∨ ∃ q ∈ b.cursorByte, q + n ≤ b.pos)
    (hat : ∀ q, At b.curBlk b.blkOffset blks q → At b'.curBlk b'.blkOffset blks' (q + n)) :
    b'.Steady B := by
  have hle := h.le
  refine hb'.steady (by omega) fun hlt => ?_
  have hcursor : ∃ q ∈ b.cursorByte, q + n ≤ b.pos := by
    rcases hlag with hzero | hlag
    · obtain ⟨q, hq, hqle⟩ := h.cursor (by omega)
      exact ⟨q, hq, by omega⟩
    · exact hlag
  obtain ⟨q, hq, hqn⟩ := hcursor
  exact ⟨q + n, by omega, hat q (at_of_cursorByte hb.list hq).2⟩

theorem allocHeader_still (hm : m.Sound) (h : b.Steady m.blkSize)
    (hlt : b.capacity + n < 2 ^ 32) (isCont : Bool) (hc : HeaderBehind m b n isCont) :
    ∃ e m' b', allocHeader m b n isCont = .ok (e, m', b') ∧ Still m m' b' := by
  obtain ⟨blks, hb⟩ := h.holds
  obtain ⟨free, hpool⟩ := hm.pool
  cases blks with
  | nil => exact ⟨_, _, _, allocHeader_empty hb.list n isCont, Still.same hm h⟩
  | cons first rest =>
    have hfront := (Cursor.frontSlack_eq hb).1
    have hfirst : first.Ok m.blkSize := hb.ok first (by simp)
    have hcap := hb.capacity
    rw [sizes_cons] at hcap
    have hne : b.blkList ≠ [] := by
      rw [hb.list]
      exact List.cons_ne_nil _ _
    rw [HeaderBehind, hfront] at hc
    by_cases hfits : n ≤ first.data
    · -- in the slack of the first block
      rw [if_pos hfits] at hc
      have hlag := hc.resolve_left hne
      have hsize : add32 first.size n = first.size + n := wrapAdd_eq (by omega)
      have hcapacity : add32 b.capacity n = b.capacity + n := wrapAdd_eq hlt
      have hr := inPlace_reshaped hpool hb hlt hfits
      refine ⟨_, _, _, allocHeader_inPlace hb.list hfits isCont, rfl, hm, ?_⟩
      refine hb.steady_front h.behind hr.holds rfl hcapacity hlag fun q hat => ?_
      rw [hsize]
      exact hat.grow_front hfits
    rw [if_neg hfits] at hc
    have hslack : first.data < n := Nat.lt_of_not_le hfits
    cases isCont with
    | true =>
      rw [if_pos rfl] at hc
      by_cases hbig : m.blkSize < n
      · exact ⟨_, _, _, allocHeader_tooBig hb.list hslack hbig, Still.same hm h⟩
      · -- in a block of its own
        have hnew : m.pktBlk.items ≠ [] ∧ ∃ q ∈ b.cursorByte, q + n ≤ b.pos := by
          rcases hc with hnil | hzero | htoo | hnew
          · exact absurd hnil hne
          · omega
          · omega
          · exact hnew
        cases free with
        | nil =>
          have hitems := hpool.items
          exact absurd hitems hnew.1
        | cons blk free =>
          have hcapacity : add32 b.capacity n = b.capacity + n := wrapAdd_eq hlt
          have hroom := hm.room
          rw [hpool.items, List.length_map, List.length_cons] at hroom
          have hr := newBlock_reshaped hpool hb hlt (by omega) (Nat.le_of_not_lt hbig)
          have hpay : ∀ blk ∈ free, blk.payload.length = m.blkSize := fun b hb =>
            hpool.payload b (List.mem_cons_of_mem _ hb)
          refine ⟨_, _, _,
            allocHeader_newBlock hb.list hslack (Nat.le_of_not_lt hbig) hpool, rfl,
            hm.withFree hpay (by omega), ?_⟩
          exact hb.steady_front h.behind hr.holds rfl hcapacity (.inr hnew.2) fun q hat =>
            hat.pushed _
    | false =>
      rw [if_neg Bool.false_ne_true] at hc
      have hflush := flushFront_holds hb (by omega)
      have hcapf : (b.flushFront first rest).capacity = b.capacity + first.data :=
        wrapAdd_eq (by omega)
      have heq := allocHeader_split (m := m) hb.list hslack
      by_cases hn : n - first.data ≤ m.freeBytes
      · obtain ⟨m', b', halloc, hs⟩ := alloc_rewinds_still hm hflush (by omega) hn true true
        simp only [halloc, ok_bind, if_true] at heq
        exact ⟨_, m', b', heq, hs⟩
      · -- the failing call has taken in the slack
        obtain ⟨m', halloc, hm', hB⟩ :=
          alloc_fails hm hflush.capacity_lt (Nat.lt_of_not_le hn) true true
        have hlag : first.data = 0 ∨ ∃ q ∈ b.cursorByte, q + first.data ≤ b.pos := by
          rcases hc with hnil | hzero | hfree | hlag
          · exact absurd hnil hne
          · omega
          · exact absurd hfree hn
          · exact hlag
        have hsize : add32 first.size first.data = first.size + first.data := wrapAdd_eq (by omega)
        simp only [halloc, ok_bind, Bool.false_eq_true, if_false] at heq
        refine ⟨_, m', _, heq, hB, hm', Steady.withRef ?_ 1⟩
        refine hb.steady_front h.behind hflush rfl hcapf hlag fun q hat => ?_
        have hgrown := hat.grow_front (Nat.le_refl first.data)
        rw [Nat.sub_self, ← hsize] at hgrown
        exact hgrown

theorem removeHeader_still (hm : m.Sound) (h : b.Steady m.blkSize) (hn : n ≤ b.capacity)
    (hc : RemoveBehind b n) (heq : removeHeader m b n = .ok (e, m', b')) : Still m m' b' := by
  obtain ⟨blks, hb⟩ := h.holds
  have hle := h.behind.le
  have hlt := hb.lt
  have hcap := hb.capacity
  have hne : blks ≠ [] := by
    rintro rfl
    rw [removeHeader, if_pos (by rw [hb.list]; rfl)] at heq
    cases heq
  rw [removeHeader_eq m hb hne hn] at heq
  cases heq
  have hgone : ∀ blk ∈ (Pkt.PktBuffer.cutFront n blks).1, blk.payload.length = m.blkSize :=
    fun blk hblk => (hb.ok blk (cutFront_gone_mem n blks blk hblk)).payload
  have hholds : PktBuffer.Holds m.blkSize { b with
      blkList := (Pkt.PktBuffer.cutFront n blks).2.map some, capacity := b.capacity - n
      curBlk := b.curBlk.erased 0 (Pkt.PktBuffer.cutFront n blks).1.length }
      (Pkt.PktBuffer.cutFront n blks).2 := by
    refine ⟨rfl, cutFront_ok n blks hb.ok, ?_, ?_⟩
    · rw [cutFront_sizes, hcap]
    · rw [cutFront_sizes]
      omega
  refine ⟨rfl, hm.release hgone, hholds.steady ?_ fun hin => ?_⟩
  · change b.pos ≤ b.capacity - n
    rcases hc with hzero | hend | ⟨hin, -⟩
    · omega
    · omega
    · omega
  · change b.pos < b.capacity - n at hin
    obtain ⟨q, hq, hqle⟩ := h.behind.cursor (by omega)
    have hnq : n ≤ q := by
      rcases hc with hzero | hend | ⟨-, q', hq', hnq⟩
      · omega
      · omega
      · rw [Option.mem_def, hq] at hq'
        cases hq'
        exact hnq
    refine ⟨q - n, ?_, (at_of_cursorByte hb.list hq).2.cutFront hnq⟩
    change q - n ≤ b.pos
    omega

/-- A shrinking `resize` that returns has cut the last block only. -/
theorem resize_still (hm : m.Sound) (h : b.Steady m.blkSize) (self : BufId) (hpos : 1 ≤ n)
    (hn : n ≤ b.capacity) (hc : n = b.capacity ∨ b.pos ≤ n)
    (heq : resize m self b n = .ok (e, m', b')) : Still m m' b' := by
  obtain ⟨blks, hb⟩ := h.holds
  by_cases hsame : n = b.capacity
  · rw [resize_same self hsame] at heq
    cases heq
    exact Still.same hm h
  have hcap := hb.capacity
  have hlt := hb.lt
  obtain ⟨init, tail, rfl⟩ := hb.exists_last (show b.capacity ≠ 0 by omega)
  have hfits := (hb.ok tail (by simp)).fits
  by_cases hcut : sizes init < n
  · rw [resize_shrink self hb hcut (by omega)] at heq
    cases heq
    rw [sizes_append, sizes_cons, sizes_nil] at hcap hlt
    have hholds := resize_last_holds hb (n - sizes init) n (by omega) (by omega) (by omega)
      (by omega)
    refine ⟨rfl, hm, hholds.steady (hc.resolve_left hsame) fun hin => ?_⟩
    change b.pos < n at hin
    obtain ⟨q, hq, hqle⟩ := h.behind.cursor (by omega)
    have hat := (at_of_cursorByte hb.list hq).2
    refine ⟨q, hqle, hat.resize_last ?_ (by omega)⟩
    rw [sizes_append, sizes_cons, sizes_nil]
    omega
  · rw [resize_fault self hb hpos (by omega) (by rw [List.dropLast_concat]; omega)] at heq
    cases heq

theorem setContHeader_still (hm : m.Sound) (h : b.Steady m.blkSize) (hc : ContBehind m b n)
    (heq : setContHeader m b n = .ok (e, m', b')) : Still m m' b' := by
  obtain ⟨blks, hb⟩ := h.holds
  by_cases hbig : b.capacity < n ∨ m.blkSize < n
  · rw [setContHeader_tooBig hbig] at heq
    cases heq
    exact Still.same hm h
  cases blks with
  | nil =>
    rw [setContHeader, if_neg (by omega), if_neg (by omega), hb.list] at heq
    cases heq
  | cons first rest =>
    by_cases henough : n ≤ first.size
    · rw [setContHeader_enough hb.list (by omega) (by omega) henough] at heq
      cases heq
      exact Still.same hm h
    · have hlong : first.size < n := Nat.lt_of_not_le henough
      obtain ⟨hslack, hsize⟩ := Cursor.frontSlack_eq hb
      have hcap := hb.capacity
      rw [sizes_cons] at hcap
      rw [setContHeader_gather hb (by omega) (by omega) hlong] at heq
      cases heq
      have hholds := gather_holds hb (n := n) (by omega) (by omega) hlong
      have hgone := gone_payload (n - first.size) fun blk hblk =>
        hb.ok blk (List.mem_cons_of_mem _ hblk)
      refine ⟨rfl, hm.release hgone, hholds.steady h.behind.le fun hin => ?_⟩
      change b.pos < b.capacity at hin
      obtain ⟨q, hq, hqle⟩ := h.behind.cursor hin
      obtain ⟨hqlt, hat⟩ := at_of_cursorByte hb.list hq
      rw [ContBehind, hslack, hsize] at hc
      have hplace : n ≤ q ∨ (q < first.size ∧ first.data + q < n ∧ first.data + q ≤ b.pos) := by
        rcases hc with hc | hc | hc | hc | ⟨q', hq', hc⟩
        · omega
        · omega
        · omega
        · omega
        · rw [Option.mem_def, hq] at hq'
          cases hq'
          exact hc
      rcases hplace with hbehind | ⟨hin', hwin, hlag⟩
      · exact ⟨q, hqle, hat.gather hlong hbehind (by omega)⟩
      · exact ⟨first.data + q, hlag, hat.gather_shift hin' hwin⟩

/-- More blocks behind a cursor in a window. -/
theorem merge_steady {B : Nat} {buf : PktBuffer} (h : b.Steady B) (hbuf : buf.Steady B)
    (hlt : b.capacity + buf.capacity < 2 ^ 32)
    (hc : buf.capacity = 0 ∨ b.cursorByte.isSome = true) :
    PktBuffer.Steady B { b with
      blkList := b.blkList ++ buf.blkList, capacity := add32 b.capacity buf.capacity } := by
  obtain ⟨blks, hb⟩ := h.holds
  obtain ⟨blks', hb'⟩ := hbuf.holds
  have hle := h.behind.le
  have hcap := hb.capacity
  have hcapacity : add32 b.capacity buf.capacity = b.capacity + buf.capacity := wrapAdd_eq hlt
  refine (merge_holds hb hb' hlt).steady ?_ fun hin => ?_
  · change b.pos ≤ add32 b.capacity buf.capacity
    omega
  · change b.pos < add32 b.capacity buf.capacity at hin
    have hcursor : ∃ q ∈ b.cursorByte, q ≤ b.pos := by
      by_cases hend : b.pos < b.capacity
      · exact h.behind.cursor hend
      · obtain ⟨q, hq⟩ := Option.isSome_iff_exists.mp (hc.resolve_left (by omega))
        have hqlt := (at_of_cursorByte hb.list hq).1
        exact ⟨q, hq, by omega⟩
    obtain ⟨q, hq, hqle⟩ := hcursor
    obtain ⟨hqlt, hat⟩ := at_of_cursorByte hb.list hq
    exact ⟨q, hqle, hat.append hqlt blks'⟩

end PktBuffer

/-! ## Runs -/

open PktBuffer

/-- What a call must meet, in the state before it. A packet stays below
`2 ^ 32` bytes, as `m_capacity` is a `uint32_t`. -/
def StaysBehind (s : World × Finset BufId) : Op → Prop
  | .alloc i size _ _ => i ∈ s.2 ∧ (s.1.bufs i).capacity + size < 2 ^ 32
  | .allocHeader i size isCont =>
      i ∈ s.2 ∧ (s.1.bufs i).capacity + size < 2 ^ 32 ∧
        HeaderBehind s.1.mgr (s.1.bufs i) size isCont
  | .removeHeader i size =>
      i ∈ s.2 ∧ size ≤ (s.1.bufs i).capacity ∧ RemoveBehind (s.1.bufs i) size
  | .resize i size =>
      i ∈ s.2 ∧ 1 ≤ size ∧ size ≤ (s.1.bufs i).capacity ∧
        (size = (s.1.bufs i).capacity ∨ (s.1.bufs i).pos ≤ size)
  | .mergeBuf i buf =>
      i ∈ s.2 ∧ buf ∈ s.2 ∧ i ≠ buf ∧
        (s.1.bufs i).capacity + (s.1.bufs buf).capacity < 2 ^ 32 ∧
        ((s.1.bufs buf).capacity = 0 ∨ (s.1.bufs i).cursorByte.isSome = true)
  | .setContHeader i size => i ∈ s.2 ∧ ContBehind s.1.mgr (s.1.bufs i) size
  | .resetAccess i => i ∈ s.2
  | op => Access (· ∈ s.2) op

instance (s : World × Finset BufId) : ∀ op, Decidable (StaysBehind s op)
  | .alloc .. => inferInstanceAs (Decidable (_ ∧ _))
  | .allocHeader .. => inferInstanceAs (Decidable (_ ∧ _ ∧ HeaderBehind ..))
  | .removeHeader .. => inferInstanceAs (Decidable (_ ∧ _ ∧ RemoveBehind ..))
  | .resize .. => inferInstanceAs (Decidable (_ ∧ _ ∧ _ ∧ (_ ∨ _)))
  | .mergeBuf .. => inferInstanceAs (Decidable (_ ∧ _ ∧ _ ∧ _ ∧ (_ ∨ _)))
  | .setContHeader .. => inferInstanceAs (Decidable (_ ∧ ContBehind ..))
  | .resetAccess .. => inferInstanceAs (Decidable (_ ∈ _))
  | .seek .. => inferInstanceAs (Decidable (_ ∈ _))
  | .read .. => inferInstanceAs (Decidable (_ ∧ ∀ mem ∈ (_ : Option (List UInt8)), _))
  | .write .. => inferInstanceAs (Decidable (_ ∧ ∀ mem ∈ (_ : Option (List UInt8)), _))
  | .fill .. => inferInstanceAs (Decidable (_ ∈ _))
  | .copy .. => inferInstanceAs (Decidable (_ ∧ _ ∧ _))

/-- What an access does, unless its checks reject it: its loop ends, and every
round handles at least one byte, in the window of a block of the list. -/
def World.Proceeds (w : World) : Op → Prop
  | .seek i offset => (w.bufs i).Seeks offset
  | .read i dest size => (w.bufs i).Reads dest size
  | .write i src size => (w.bufs i).Writes src size
  | .fill i v size => (w.bufs i).Fills v size
  | .copy i src size => (w.bufs i).Copies (w.bufs src) size
  | _ => True

/-- Every access to buffers in use returns and stays inside the packets. -/
def AccessesProceed (s : World × Finset BufId) : Prop :=
  ∀ op, Access (· ∈ s.2) op → s.1.Proceeds op ∧ ∃ r w', s.1.step op = .ok (r, w')

/-- The run invariant. -/
structure World.Steady (s : World × Finset BufId) : Prop where
  sound : s.1.mgr.Sound
  bufs : ∀ i ∈ s.2, (s.1.bufs i).Steady s.1.mgr.blkSize

variable {w w' : World} {live : Finset BufId}

namespace World.Steady

theorem put (h : World.Steady (w, live)) {m : PktManager} {i : BufId} {b : PktBuffer}
    (hs : Still w.mgr m b) : World.Steady (w.put m i b, live) := by
  refine ⟨hs.sound, fun j hj => ?_⟩
  change ((w.put m i b).bufs j).Steady m.blkSize
  rw [hs.blkSize]
  by_cases hji : j = i
  · rw [hji, World.put_self]
    exact hs.steady
  · rw [World.put_of_ne _ hji]
    exact h.bufs j hj

theorem putBuf (h : World.Steady (w, live)) {i : BufId} {b : PktBuffer}
    (hb : b.Steady w.mgr.blkSize) : World.Steady (w.putBuf i b, live) :=
  h.put ⟨rfl, h.sound, hb⟩

/-- An access keeps every buffer as it should be, whatever it returns. -/
theorem access (h : World.Steady (w, live)) {op : Op} (hop : Access (· ∈ live) op) :
    w.Proceeds op ∧ ∃ r w', w.step op = .ok (r, w') ∧ World.Steady (w', live) := by
  cases op with
  | seek i offset =>
    obtain ⟨hseeks, e, b, heq, hb⟩ := (h.bufs i hop).seek offset
    exact ⟨hseeks, .err e, w.putBuf i b, by simp only [World.step, heq, ok_bind], h.putBuf hb⟩
  | read i dest size =>
    obtain ⟨hreads, e, dest', b, heq, hb⟩ := (h.bufs i hop.1).read hop.2
    exact ⟨hreads, .read e dest', w.putBuf i b, by simp only [World.step, heq, ok_bind], h.putBuf hb⟩
  | write i src size =>
    obtain ⟨hwrites, e, b, heq, hb⟩ := (h.bufs i hop.1).write hop.2
    exact ⟨hwrites, .err e, w.putBuf i b, by simp only [World.step, heq, ok_bind], h.putBuf hb⟩
  | fill i v size =>
    obtain ⟨hfills, e, b, heq, hb⟩ := (h.bufs i hop).fill v size
    exact ⟨hfills, .err e, w.putBuf i b, by simp only [World.step, heq, ok_bind], h.putBuf hb⟩
  | copy i src size =>
    obtain ⟨hcopies, e, b, s, heq, hb, hs⟩ := (h.bufs i hop.1).copy (h.bufs src hop.2.1) size
    exact ⟨hcopies, .err e, (w.putBuf i b).putBuf src s, by simp only [World.step, heq, ok_bind],
      (h.putBuf hb).putBuf hs⟩
  | alloc i size f ins => exact hop.elim
  | allocHeader i size isCont => exact hop.elim
  | removeHeader i size => exact hop.elim
  | resize i size => exact hop.elim
  | mergeBuf i buf => exact hop.elim
  | setContHeader i size => exact hop.elim
  | resetAccess i => exact hop.elim

theorem resetAccess (h : World.Steady (w, live)) {i : BufId} (hi : i ∈ live) {r : Reply}
    (heq : w.step (.resetAccess i) = .ok (r, w')) : World.Steady (w', live) := by
  obtain ⟨blks, hb⟩ := (h.bufs i hi).holds
  simp only [World.step, resetAccess_eq hb.list, ok_bind] at heq
  cases heq
  refine h.putBuf (hb.rewound.steady (Nat.zero_le _) fun _ => ?_)
  exact ⟨0, Nat.le_refl 0, rewound_at hb.ok _⟩

theorem mergeBuf (h : World.Steady (w, live)) {i buf : BufId} {r : Reply}
    (hop : StaysBehind (w, live) (.mergeBuf i buf))
    (heq : w.step (.mergeBuf i buf) = .ok (r, w')) : World.Steady (w', live.erase buf) := by
  obtain ⟨hi, hbuf, hne, hlt, hc⟩ := hop
  have hmerged := merge_steady (h.bufs i hi) (h.bufs buf hbuf) hlt hc
  cases heq
  refine ⟨h.sound.withPktBuf _, fun j hj => ?_⟩
  obtain ⟨hjb, hjl⟩ := Finset.mem_erase.mp hj
  simp only [World.putBuf_of_ne _ hjb]
  by_cases hji : j = i
  · rw [hji, World.put_self]
    exact hmerged
  · rw [World.put_of_ne _ hji]
    exact h.bufs j hjl

theorem step (h : World.Steady (w, live)) {op : Op} (hop : StaysBehind (w, live) op) {r : Reply}
    (heq : w.step op = .ok (r, w')) : World.Steady (w', liveAfter live op) := by
  have haccess : Access (· ∈ live) op → liveAfter live op = live →
      World.Steady (w', liveAfter live op) := by
    intro hacc hlive
    obtain ⟨-, r₁, w₁, heq₁, hw₁⟩ := h.access hacc
    rw [heq] at heq₁
    cases heq₁
    rw [hlive]
    exact hw₁
  cases op with
  | alloc i size f ins =>
    obtain ⟨ok, m, b, hcall, hs⟩ := alloc_still h.sound (h.bufs i hop.1) hop.2 f ins
    rw [World.step_alloc hcall] at heq
    cases heq
    exact h.put hs
  | allocHeader i size isCont =>
    obtain ⟨e, m, b, hcall, hs⟩ :=
      allocHeader_still h.sound (h.bufs i hop.1) hop.2.1 isCont hop.2.2
    rw [World.step_allocHeader hcall] at heq
    cases heq
    exact h.put hs
  | removeHeader i size =>
    simp only [World.step, bind_eq_ok] at heq
    obtain ⟨⟨e, m, b⟩, hcall, heq⟩ := heq
    cases heq
    exact h.put (removeHeader_still h.sound (h.bufs i hop.1) hop.2.1 hop.2.2 hcall)
  | resize i size =>
    simp only [World.step, bind_eq_ok] at heq
    obtain ⟨⟨e, m, b⟩, hcall, heq⟩ := heq
    cases heq
    exact h.put (resize_still h.sound (h.bufs i hop.1) i hop.2.1 hop.2.2.1 hop.2.2.2 hcall)
  | mergeBuf i buf => exact h.mergeBuf hop heq
  | setContHeader i size =>
    simp only [World.step, bind_eq_ok] at heq
    obtain ⟨⟨e, m, b⟩, hcall, heq⟩ := heq
    cases heq
    exact h.put (setContHeader_still h.sound (h.bufs i hop.1) hop.2 hcall)
  | resetAccess i => exact h.resetAccess hop heq
  | seek i offset => exact haccess hop rfl
  | read i dest size => exact haccess hop rfl
  | write i src size => exact haccess hop rfl
  | fill i v size => exact haccess hop rfl
  | copy i src size => exact haccess hop rfl

end World.Steady

/-- A buffer from `get_pktbuffer`, with `m_pos` zero; its cursor may be anything. -/
structure PktBuffer.Fresh (b : PktBuffer) : Prop where
  list : b.blkList = []
  capacity : b.capacity = 0
  pos : b.pos = 0

theorem PktBuffer.Fresh.steady {b : PktBuffer} (h : b.Fresh) (B : Nat) : b.Steady B := by
  have hholds : b.Holds B [] := ⟨h.list, by simp, h.capacity, by decide⟩
  have hcap := h.capacity
  have hpos := h.pos
  exact hholds.steady (by omega) fun hin => by omega

/-- In every state of a run whose steps all meet `StaysBehind`, every access
proceeds inside the packets. -/
theorem accesses_proceed_run (hmgr : w.mgr.Sound) (hstart : ∀ i ∈ live, (w.bufs i).Fresh)
    (ops : List Op) (hops : Along cursorNext StaysBehind (w, live) ops) :
    Always cursorNext AccessesProceed (w, live) ops := by
  have hinv : World.Steady (w, live) := ⟨hmgr, fun i hi => (hstart i hi).steady w.mgr.blkSize⟩
  have hsafe : ∀ s, World.Steady s → AccessesProceed s := by
    rintro ⟨w₁, live₁⟩ hs op hop
    obtain ⟨hproceeds, r, w₂, heq, -⟩ := hs.access hop
    exact ⟨hproceeds, r, w₂, heq⟩
  have hstep : ∀ (s : World × Finset BufId) op s', World.Steady s → StaysBehind s op →
      cursorNext s op = some s' → World.Steady s' := by
    rintro ⟨w₁, live₁⟩ op s' hs hop hnext
    simp only [cursorNext] at hnext
    split at hnext
    · rename_i r w₂ heq
      cases hnext
      exact hs.step hop heq
    · cases hnext
  exact always_of_along hsafe hstep ops (w, live) hinv hops

/-- Two packets without blocks, and four free blocks of eight bytes. -/
def freshPackets : World where
  mgr := resetPackets.mgr
  bufs _ := .new

/-- The removed header and the merged packet leave the cursor two bytes
behind, and the new header brings it back to byte `m_pos`. -/
def laggingCalls : List Op :=
  [.alloc 0 12 false false, .alloc 1 4 true false, .seek 0 10, .removeHeader 0 2, .mergeBuf 0 1,
    .read 0 (some [0, 0]) 2, .allocHeader 0 2 true, .fill 0 7 4]

theorem accesses_proceed_run_lagging :
    (run cursorNext (freshPackets, {0, 1}) laggingCalls).isSome = true ∧
      Always cursorNext AccessesProceed (freshPackets, {0, 1}) laggingCalls := by
  have hmgr : freshPackets.mgr.Sound :=
    ⟨by decide, by decide, ⟨resetBlocks, rfl, by decide⟩, by decide⟩
  refine ⟨by decide, accesses_proceed_run hmgr (fun i _ => ⟨rfl, rfl, rfl⟩) laggingCalls ?_⟩
  decide

/-- A packet of four bytes is written to its end, and another of four is merged into it. -/
def mergingCalls : List Op :=
  [.alloc 0 4 true false, .alloc 1 4 true false, .write 0 (some [1, 2, 3, 4]) 4, .mergeBuf 0 1]

/-- Four bytes are left by the size check, and none in front of the cursor. -/
theorem merged_at_end :
    ∃ w, run cursorNext (freshPackets, {0, 1}) mergingCalls = some (w, ({0, 1} : Finset BufId).erase 1) ∧
      (w.bufs 0).totalBlkRemain = 4 ∧ w.step (.fill 0 7 1) = .error .badIterator ∧
      ¬ AccessesProceed (w, ({0, 1} : Finset BufId).erase 1) := by
  refine ⟨_, rfl, rfl, rfl, fun h => ?_⟩
  have hlive : 0 ∈ ({0, 1} : Finset BufId).erase 1 := by decide
  obtain ⟨-, r, w, heq⟩ := h (.fill 0 7 1) hlive
  cases heq

end TinyTcp.Pkt
