/-
TinyTcp.Pkt.ContHeader — `set_cont_header` gathers the first `n` bytes in
the first block.

The first window moves to the start of its payload, and the missing bytes
are cut off the front of the other blocks (`cutFront`, as in
`remove_header`) and appended to it. The contents stay as they are
(`gathered_content`), and so do the byte and the address of a cursor that
lies behind the gathered bytes (`At.gather`). `setContHeader_contiguous`
puts the pieces together.
-/
import TinyTcp.Pkt.Layout

namespace TinyTcp.Pkt

open TinyTcp.Lib

namespace PktBuffer

/-- A block all of whose data has been moved away. -/
def emptied (blk : PktBlock) : PktBlock := { blk with data := blk.data + blk.size, size := 0 }

/-- The first block after `set_cont_header(n)`. -/
def gathered (n : Nat) (first : PktBlock) (rest : List PktBlock) : PktBlock :=
  { first with
    payload := splice (splice first.payload 0 first.window) first.size
      ((content rest).take (n - first.size))
    data := 0, size := n }

variable {B n : Nat} {first : PktBlock} {rest : List PktBlock}

/-! ## The loop -/

theorem contLoop_eq (rest : List PktBlock) (hok : ∀ blk ∈ rest, blk.Ok B) (r ptr : Nat)
    (first : PktBlock) (hr : r ≤ sizes rest) (hfit : ptr + r ≤ first.payload.length)
    (hlt : first.size + r < 2 ^ 32) :
    contLoop r first ptr (rest.map some) =
      .ok ({ first with
          payload := splice first.payload ptr ((content rest).take r), size := first.size + r },
        (cutFront r rest).2.map some, ((cutFront r rest).1.map emptied).map some) := by
  induction rest generalizing r ptr first with
  | nil =>
    obtain rfl : r = 0 := by simpa using hr
    simp [contLoop, cutFront]
  | cons blk rest ih =>
    have hblk : blk.Ok B := hok blk List.mem_cons_self
    have hfits := hblk.fits
    have hpay := hblk.payload
    have hwin := hblk.window_length
    rw [sizes_cons] at hr
    cases r with
    | zero => simp [contLoop, cutFront]
    | succ r =>
      obtain ⟨c, hc⟩ : ∃ c, c = min (r + 1) blk.size := ⟨_, rfl⟩
      have hload : load blk.payload blk.data c = .ok (blk.window.take c) := by
        rw [load, if_pos (by omega)]
        simp only [PktBlock.window, slice, List.take_take]
        rw [Nat.min_eq_left (by omega)]
      have htake : (blk.window.take c).length = c := by
        rw [List.length_take]
        omega
      have hstore : store first.payload ptr (blk.window.take c) =
          .ok (splice first.payload ptr (blk.window.take c)) := by
        rw [store, if_pos (by omega)]
      have hsize : add32 first.size c = first.size + c := wrapAdd_eq (by omega)
      simp only [List.map_cons, contLoop, ← hc, hload, hstore, hsize, ok_bind]
      by_cases hin : r + 1 < blk.size
      · -- this block has all the missing bytes
        have hcr : c = r + 1 := by omega
        rw [if_neg (by omega)]
        simp only [cutFront, if_pos hin, content_cons, hcr, List.map_nil, List.map_cons]
        rw [List.take_append_of_le_length (by omega)]
      · -- all of this block goes to the first one
        have hcs : c = blk.size := by omega
        have hall : blk.window.take c = blk.window := List.take_of_length_le (by omega)
        have hnext := ih (fun b hb => hok b (List.mem_cons_of_mem _ hb)) (r + 1 - c) (ptr + c)
          { first with
            payload := splice first.payload ptr (blk.window.take c), size := first.size + c }
          (by omega)
          (by
            change ptr + c + (r + 1 - c) ≤ (splice first.payload ptr (blk.window.take c)).length
            rw [length_splice (by omega)]
            omega)
          (by
            change first.size + c + (r + 1 - c) < 2 ^ 32
            omega)
        have hjoin := splice_splice
          (show ptr + (blk.window.take c).length ≤ first.payload.length by omega)
          ((content rest).take (r + 1 - c))
        rw [htake] at hjoin
        have htakes : blk.window.take c ++ (content rest).take (r + 1 - c) =
            (content (blk :: rest)).take (r + 1) := by
          rw [content_cons, List.take_append, hwin, hall, hcs,
            List.take_of_length_le (show blk.window.length ≤ r + 1 by omega)]
        have hsum : first.size + c + (r + 1 - c) = first.size + (r + 1) := by omega
        rw [if_pos (by omega)]
        have hcut : cutFront (r + 1) (blk :: rest) =
            (blk :: (cutFront (r + 1 - c) rest).1, (cutFront (r + 1 - c) rest).2) := by
          rw [cutFront, if_neg hin, hcs]
        simp only [hnext, ok_bind, hcut, hjoin, htakes, hsum, List.map_cons]
        rw [hcs, Nat.sub_self]
        rfl

/-! ## The call -/

/-- `set_cont_header` up to the releases: the error, the buffer and the
blocks to release, in order. -/
def gatherHeader (blkSize : Nat) (b : PktBuffer) (size : Nat) :
    Except Fault (NetErr × PktBuffer × List BlkPtr) :=
  if size > b.capacity then .ok (.size, b, [])
  else if size > blkSize then .ok (.size, b, [])
  else
    match b.blkList with
    | [] => .error .emptyList
    | none :: _ => .error .nullDeref
    | some first :: rest =>
        let firstSize := first.size
        if size ≤ firstSize then .ok (.ok, b, [])
        else do
          let bytes ← load first.payload first.data firstSize
          let payload ← store first.payload 0 bytes
          let first := { first with payload := payload, data := 0 }
          let (first, rest, gone) ← contLoop (size - firstSize) first firstSize rest
          .ok (.ok, { b with
            blkList := some first :: rest, curBlk := b.curBlk.erased 1 gone.length }, gone)

/-- The releases come last. -/
theorem setContHeader_eq (m : PktManager) (b : PktBuffer) (size : Nat) :
    setContHeader m b size =
      (do
        let (err, b, gone) ← gatherHeader m.blkSize b size
        .ok (err, m.releaseAll gone, b)) := by
  unfold setContHeader gatherHeader
  by_cases hcap : size > b.capacity
  · simp [if_pos hcap]
  · rw [if_neg hcap, if_neg hcap]
    by_cases hB : size > m.blkSize
    · simp [if_pos hB]
    · rw [if_neg hB, if_neg hB]
      cases b.blkList with
      | nil => rfl
      | cons ptr rest =>
        cases ptr with
        | none => rfl
        | some first =>
          by_cases hfirst : size ≤ first.size
          · simp [if_pos hfirst]
          · simp only [if_neg hfirst, bind_assoc, ok_bind]

theorem gatherHeader_tooBig {b : PktBuffer} (h : b.capacity < n ∨ B < n) :
    gatherHeader B b n = .ok (.size, b, []) := by
  rw [gatherHeader]
  by_cases hcap : n > b.capacity
  · rw [if_pos hcap]
  · rw [if_neg hcap, if_pos (by omega)]

theorem gatherHeader_enough {b : PktBuffer} (hlist : b.blkList = (first :: rest).map some)
    (hcap : n ≤ b.capacity) (hB : n ≤ B) (hn : n ≤ first.size) :
    gatherHeader B b n = .ok (.ok, b, []) := by
  rw [List.map_cons] at hlist
  rw [gatherHeader, if_neg (Nat.not_lt.mpr hcap), if_neg (Nat.not_lt.mpr hB), hlist]
  simp only [if_pos hn]

theorem gatherHeader_gather {b : PktBuffer} (hb : b.Holds B (first :: rest))
    (hcap : n ≤ b.capacity) (hB : n ≤ B) (hn : first.size < n) :
    gatherHeader B b n = .ok (.ok, { b with
        blkList := (gathered n first rest :: (cutFront (n - first.size) rest).2).map some
        curBlk := b.curBlk.erased 1 (cutFront (n - first.size) rest).1.length },
      ((cutFront (n - first.size) rest).1.map emptied).map some) := by
  have hfirst : first.Ok B := hb.ok first List.mem_cons_self
  have hfits := hfirst.fits
  have hpay := hfirst.payload
  have hwin := hfirst.window_length
  have hlist := hb.list
  have hsizes := hb.capacity
  have hlt := hb.lt
  rw [sizes_cons] at hsizes hlt
  rw [List.map_cons] at hlist
  have hload : load first.payload first.data first.size = .ok first.window := by
    rw [load, if_pos (by omega)]
    rfl
  have hstore : store first.payload 0 first.window = .ok (splice first.payload 0 first.window) := by
    rw [store, if_pos (by omega)]
  have hloop := contLoop_eq rest (fun blk h => hb.ok blk (List.mem_cons_of_mem _ h))
    (n - first.size) first.size
    { first with payload := splice first.payload 0 first.window, data := 0 } (by omega)
    (by
      change first.size + (n - first.size) ≤ (splice first.payload 0 first.window).length
      rw [length_splice (by omega)]
      omega)
    (by
      change first.size + (n - first.size) < 2 ^ 32
      omega)
  have hsum : first.size + (n - first.size) = n := by omega
  rw [gatherHeader, if_neg (by omega), if_neg (by omega), hlist]
  simp only [if_neg (show ¬ n ≤ first.size by omega), hload, hstore, ok_bind, hloop, hsum,
    List.length_map]
  rfl

theorem setContHeader_tooBig {m : PktManager} {b : PktBuffer}
    (h : b.capacity < n ∨ m.blkSize < n) : setContHeader m b n = .ok (.size, m, b) := by
  rw [setContHeader_eq, gatherHeader_tooBig h]
  rfl

theorem setContHeader_enough {m : PktManager} {b : PktBuffer}
    (hlist : b.blkList = (first :: rest).map some) (hcap : n ≤ b.capacity) (hB : n ≤ m.blkSize)
    (hn : n ≤ first.size) : setContHeader m b n = .ok (.ok, m, b) := by
  rw [setContHeader_eq, gatherHeader_enough hlist hcap hB hn]
  rfl

theorem setContHeader_gather {m : PktManager} {b : PktBuffer}
    (hb : b.Holds m.blkSize (first :: rest)) (hcap : n ≤ b.capacity) (hB : n ≤ m.blkSize)
    (hn : first.size < n) :
    setContHeader m b n = .ok (.ok,
      m.releaseAll (((cutFront (n - first.size) rest).1.map emptied).map some), { b with
        blkList := (gathered n first rest :: (cutFront (n - first.size) rest).2).map some
        curBlk := b.curBlk.erased 1 (cutFront (n - first.size) rest).1.length }) := by
  rw [setContHeader_eq, gatherHeader_gather hb hcap hB hn]
  rfl

/-- The blocks that are released still have their payloads. -/
theorem gone_payload (r : Nat) (hrest : ∀ blk ∈ rest, blk.Ok B) :
    ∀ blk ∈ (cutFront r rest).1.map emptied, blk.payload.length = B := by
  intro blk hblk
  obtain ⟨blk', hblk', rfl⟩ := List.mem_map.mp hblk
  exact (hrest blk' (cutFront_gone_mem r rest blk' hblk')).payload

/-- The first block now holds its own bytes and the ones that were missing. -/
theorem gathered_window (hfirst : first.Ok B) (hrest : ∀ blk ∈ rest, blk.Ok B)
    (hn : first.size < n) (hB : n ≤ B) (hall : n - first.size ≤ sizes rest) :
    (gathered n first rest).window = first.window ++ (content rest).take (n - first.size) := by
  have hpay := hfirst.payload
  have hwin := hfirst.window_length
  have hlen : ((content rest).take (n - first.size)).length = n - first.size := by
    rw [List.length_take, content_length hrest]
    omega
  have hjoin := splice_splice (show 0 + first.window.length ≤ first.payload.length by omega)
    ((content rest).take (n - first.size))
  rw [Nat.zero_add, hwin] at hjoin
  have hboth : (first.window ++ (content rest).take (n - first.size)).length = n := by
    rw [List.length_append]
    omega
  have hself := slice_splice_self
    (show 0 + (first.window ++ (content rest).take (n - first.size)).length ≤
      first.payload.length by omega)
  rw [hboth] at hself
  rw [PktBlock.window, gathered, hjoin, hself]

theorem gathered_ok (hfirst : first.Ok B) (hrest : ∀ blk ∈ rest, blk.Ok B)
    (hn : first.size < n) (hB : n ≤ B) (hall : n - first.size ≤ sizes rest) :
    (gathered n first rest).Ok B := by
  have hpay := hfirst.payload
  have hwin := hfirst.window_length
  have hfits := hfirst.fits
  have hlen : ((content rest).take (n - first.size)).length = n - first.size := by
    rw [List.length_take, content_length hrest]
    omega
  have hfront : (splice first.payload 0 first.window).length = B := by
    rw [length_splice (by omega), hpay]
  refine ⟨?_, ?_, ?_⟩
  · change 1 ≤ n
    omega
  · change 0 + n ≤ B
    omega
  · change (splice (splice first.payload 0 first.window) first.size _).length = B
    rw [length_splice (by omega), hfront]

theorem gathered_content (hfirst : first.Ok B) (hrest : ∀ blk ∈ rest, blk.Ok B)
    (hn : first.size < n) (hB : n ≤ B) (hall : n - first.size ≤ sizes rest) :
    content (gathered n first rest :: (cutFront (n - first.size) rest).2) =
      content (first :: rest) := by
  rw [content_cons, content_cons, gathered_window hfirst hrest hn hB hall,
    cutFront_content _ rest hrest, List.append_assoc, List.take_append_drop]

/-- The gathered buffer is well formed. -/
theorem gather_holds {b : PktBuffer} (hb : b.Holds B (first :: rest)) (hcap : n ≤ b.capacity)
    (hB : n ≤ B) (hn : first.size < n) :
    PktBuffer.Holds B { b with
        blkList := (gathered n first rest :: (cutFront (n - first.size) rest).2).map some
        curBlk := b.curBlk.erased 1 (cutFront (n - first.size) rest).1.length }
      (gathered n first rest :: (cutFront (n - first.size) rest).2) := by
  have hfirst : first.Ok B := hb.ok first List.mem_cons_self
  have hrest : ∀ blk ∈ rest, blk.Ok B := fun blk h => hb.ok blk (List.mem_cons_of_mem _ h)
  have hsizes := hb.capacity
  have hlt := hb.lt
  rw [sizes_cons] at hsizes hlt
  have hsum : sizes (gathered n first rest :: (cutFront (n - first.size) rest).2) =
      first.size + sizes rest := by
    rw [sizes_cons, cutFront_sizes]
    change n + (sizes rest - (n - first.size)) = _
    omega
  refine ⟨rfl, ?_, ?_, ?_⟩
  · intro blk hblk
    rcases List.mem_cons.mp hblk with rfl | hblk
    · exact gathered_ok hfirst hrest hn hB (by omega)
    · exact cutFront_ok _ rest hrest blk hblk
  · rw [hsum]
    exact hsizes
  · rw [hsum]
    exact hlt

/-! ## The cursor -/

/-- Where the block of a byte behind the cut ends up. -/
theorem cutFront_split (r : Nat) (pre : List PktBlock) (blk : PktBlock) (post : List PktBlock)
    (k : Nat) (hr : r ≤ sizes pre + k) (hk : k < blk.size) :
    ∃ pre' blk' k', (cutFront r (pre ++ blk :: post)).2 = pre' ++ blk' :: post ∧
      blk'.data + k' = blk.data + k ∧ k' < blk'.size ∧ sizes pre' + k' + r = sizes pre + k ∧
      pre'.length + (cutFront r (pre ++ blk :: post)).1.length = pre.length := by
  induction pre generalizing r with
  | nil =>
    rw [sizes_nil, Nat.zero_add] at hr
    cases r with
    | zero => exact ⟨[], blk, k, rfl, rfl, hk, by simp, rfl⟩
    | succ r =>
      have hin : r + 1 < blk.size := by omega
      refine ⟨[], { blk with data := blk.data + (r + 1), size := blk.size - (r + 1) },
        k - (r + 1), ?_, ?_, ?_, ?_, ?_⟩
      · simp only [List.nil_append, cutFront, if_pos hin]
      · change blk.data + (r + 1) + (k - (r + 1)) = _
        omega
      · change k - (r + 1) < blk.size - (r + 1)
        omega
      · rw [sizes_nil]
        omega
      · simp only [List.nil_append, cutFront, if_pos hin, List.length_nil]
  | cons b pre ih =>
    cases r with
    | zero => exact ⟨b :: pre, blk, k, rfl, rfl, hk, by simp, rfl⟩
    | succ r =>
      rw [sizes_cons] at hr
      by_cases hin : r + 1 < b.size
      · refine ⟨{ b with data := b.data + (r + 1), size := b.size - (r + 1) } :: pre, blk, k,
          ?_, rfl, hk, ?_, ?_⟩
        · simp only [List.cons_append, cutFront, if_pos hin]
        · rw [sizes_cons, sizes_cons]
          change b.size - (r + 1) + sizes pre + k + (r + 1) = _
          omega
        · simp only [List.cons_append, cutFront, if_pos hin, List.length_nil, List.length_cons,
            Nat.add_zero]
      · obtain ⟨pre', blk', k', hsplit, hdata, hk', hsum, hlen⟩ := ih (r + 1 - b.size) (by omega)
        refine ⟨pre', blk', k', ?_, hdata, hk', ?_, ?_⟩
        · simp only [List.cons_append, cutFront, if_neg hin, hsplit]
        · rw [sizes_cons]
          omega
        · simp only [List.cons_append, cutFront, if_neg hin, List.length_cons]
          omega

/-- A cursor behind the gathered bytes keeps its byte and its address. -/
theorem At.gather {cur : Iter} {off : Option Nat} {p : Nat} (h : At cur off (first :: rest) p)
    (hn : first.size < n) (hp : n ≤ p) (hall : n - first.size ≤ sizes rest) :
    At (cur.erased 1 (cutFront (n - first.size) rest).1.length) off
      (gathered n first rest :: (cutFront (n - first.size) rest).2) p := by
  cases h with
  | inside pre blk post k hsplit hk hcur hoff =>
    cases pre with
    | nil =>
      obtain ⟨rfl, -⟩ := List.cons.inj hsplit
      rw [sizes_nil] at hp
      omega
    | cons b pre =>
      rw [List.cons_append] at hsplit
      obtain ⟨rfl, hrest⟩ := List.cons.inj hsplit
      rw [hrest] at hall ⊢
      rw [sizes_cons] at hp ⊢
      obtain ⟨pre', blk', k', hsplit', hdata, hk', hsum, hlen⟩ :=
        cutFront_split (n - first.size) pre blk post k (by omega) hk
      have hpos : first.size + sizes pre + k =
          sizes (gathered n first (pre ++ blk :: post) :: pre') + k' := by
        rw [sizes_cons]
        change _ = n + sizes pre' + k'
        omega
      rw [hpos]
      refine .inside _ blk' post k' (by rw [hsplit']; rfl) hk' ?_ (by rw [hdata]; exact hoff)
      rw [hcur]
      simp only [List.length_cons, Iter.erased]
      rw [if_neg (by omega), if_neg (by omega)]
      exact congrArg Iter.at (by omega)
  | atEnd hcur hoff =>
    have hend : sizes (first :: rest) =
        sizes (gathered n first rest :: (cutFront (n - first.size) rest).2) := by
      rw [sizes_cons, sizes_cons, cutFront_sizes]
      change _ = n + (sizes rest - (n - first.size))
      omega
    rw [hend]
    refine .atEnd ?_ hoff
    rw [hcur]
    rfl

/-- In the first window the cursor keeps its address, and the bytes move away
from under it by the slack there was in front of them. -/
theorem At.gather_shift {cur : Iter} {off : Option Nat} {p : Nat}
    (h : At cur off (first :: rest) p) (hp : p < first.size) (hn : first.data + p < n) :
    At (cur.erased 1 (cutFront (n - first.size) rest).1.length) off
      (gathered n first rest :: (cutFront (n - first.size) rest).2) (first.data + p) := by
  obtain ⟨pre, blk, post, k, hsplit, hk, hcur, hoff, rfl⟩ :=
    h.exists_inside (by rw [sizes_cons]; omega)
  cases pre with
  | nil =>
    obtain ⟨rfl, -⟩ := List.cons.inj hsplit
    rw [sizes_nil, Nat.zero_add] at hn ⊢
    have hlt : first.data + k < (gathered n first rest).size := hn
    refine .of_inside (List.nil_append _).symm hlt ?_ ?_ (by simp)
    · rw [hcur]
      rfl
    · rw [hoff]
      exact (congrArg some (Nat.zero_add _)).symm
  | cons b pre =>
    obtain ⟨rfl, -⟩ := List.cons.inj hsplit
    rw [sizes_cons] at hp
    omega

/-- A cursor in a first window that starts at the payload stays valid as well. -/
theorem At.gather_first {cur : Iter} {off : Option Nat} {p : Nat}
    (h : At cur off (first :: rest) p) (hn : first.size < n) (hp : p < first.size)
    (hdata : first.data = 0) :
    At (cur.erased 1 (cutFront (n - first.size) rest).1.length) off
      (gathered n first rest :: (cutFront (n - first.size) rest).2) p := by
  have hshift := h.gather_shift (n := n) hp (by omega)
  rw [hdata, Nat.zero_add] at hshift
  exact hshift

/-! ## The whole call -/

theorem emptied_addrs (blks : List PktBlock) : addrs (blks.map emptied) = addrs blks := by
  simp [addrs, emptied, Function.comp_def]

/-- What a caller of `set_cont_header(n)` may expect: with enough bytes and a
header that fits into a block, the header lies in the first block, the packet is
the same one, and what left the list is in the pool; else nothing happens. -/
def MakesContiguous (m : PktManager) (b : PktBuffer) (n : Nat) : Prop :=
  if n ≤ b.capacity ∧ n ≤ m.blkSize then
    ∃ m' b' first rest removed, setContHeader m b n = .ok (.ok, m', b') ∧
      b'.blkList = (first :: rest).map some ∧ n ≤ first.window.length ∧
      (∀ blk ∈ first :: rest, blk.Ok m.blkSize) ∧ b'.bytes = b.bytes ∧
      b'.capacity = b.capacity ∧
      m' = { m with pktBlk := { m.pktBlk with items := m.pktBlk.items ++ removed.map some } } ∧
      (addrs removed ++ addrs (first :: rest)).Perm (addrs b.blkList.reduceOption)
  else setContHeader m b n = .ok (.size, m, b)

/-- Nothing needs to be moved. -/
theorem makesContiguous_enough {m : PktManager} {b : PktBuffer}
    (hb : b.Holds m.blkSize (first :: rest)) (hcap : n ≤ b.capacity) (hB : n ≤ m.blkSize)
    (hn : n ≤ first.size) : MakesContiguous m b n := by
  have hwin := (hb.ok first List.mem_cons_self).window_length
  rw [MakesContiguous, if_pos ⟨hcap, hB⟩]
  refine ⟨m, b, first, rest, [], setContHeader_enough hb.list hcap hB hn, hb.list, by omega, hb.ok,
    rfl, rfl, ?_, ?_⟩
  · rw [List.map_nil, List.append_nil]
  · rw [hb.list, reduceOption_map_some]
    exact List.Perm.refl _

/-- The header is gathered, and the blocks this empties go back. -/
theorem makesContiguous_gather {m : PktManager} {b : PktBuffer} {free : List PktBlock}
    (hpool : m.Pool free) (hb : b.Holds m.blkSize (first :: rest))
    (hroom : free.length + rest.length ≤ m.pktBlk.cap) (hcap : n ≤ b.capacity)
    (hB : n ≤ m.blkSize) (hn : first.size < n) : MakesContiguous m b n := by
  have hfirst := hb.ok first List.mem_cons_self
  have hrest : ∀ blk ∈ rest, blk.Ok m.blkSize := fun blk h => hb.ok blk (List.mem_cons_of_mem _ h)
  have hsizes := hb.capacity
  rw [sizes_cons] at hsizes
  have hall : n - first.size ≤ sizes rest := by omega
  have hholds := gather_holds hb hcap hB hn
  have hbytes := hholds.bytes
  rw [gathered_content hfirst hrest hn hB hall, ← hb.bytes] at hbytes
  have hgone := cutFront_gone_length (n - first.size) rest hall
  have hrelease := hpool.release
    (show free.length + ((cutFront (n - first.size) rest).1.map emptied).length ≤ _ by
      rw [List.length_map]; omega)
  have hwin := (gathered_ok hfirst hrest hn hB hall).window_length
  rw [MakesContiguous, if_pos ⟨hcap, hB⟩]
  refine ⟨_, _, _, _, (cutFront (n - first.size) rest).1.map emptied,
    setContHeader_gather hb hcap hB hn, hholds.list, Nat.le_of_eq hwin.symm, hholds.ok, hbytes,
    rfl, ?_, ?_⟩
  · rw [hrelease, PktManager.withFree, List.map_append, hpool.items]
  · -- the first block stays, the others are the removed and the remaining ones
    rw [hb.list, reduceOption_map_some, emptied_addrs, addrs_cons, addrs_cons,
      ← cutFront_addrs (n - first.size) rest hall]
    exact List.perm_middle

/-- **set_cont_header** succeeds exactly if the header fits into the packet and
into a block, makes it contiguous without changing the packet, and gives the
emptied blocks back, each once. -/
theorem setContHeader_contiguous {m : PktManager} {b : PktBuffer} {free blks : List PktBlock}
    (hpool : m.Pool free) (hb : b.Holds m.blkSize blks) (hne : blks ≠ [])
    (hroom : free.length + blks.length ≤ m.pktBlk.cap) (n : Nat) : MakesContiguous m b n := by
  by_cases hfits : n ≤ b.capacity ∧ n ≤ m.blkSize
  · cases hblks : blks with
    | nil => exact absurd hblks hne
    | cons first rest =>
      rw [hblks] at hb hroom
      by_cases henough : n ≤ first.size
      · exact makesContiguous_enough hb hfits.1 hfits.2 henough
      · rw [List.length_cons] at hroom
        exact makesContiguous_gather hpool hb (by omega) hfits.1 hfits.2 (Nat.lt_of_not_le henough)
  · rw [MakesContiguous, if_neg hfits]
    exact setContHeader_tooBig (by omega)

/-- One free block of eight bytes. -/
def lastFree : PktManager where
  blkSize := 8
  pktBlk := ⟨4, [some ⟨3, 0, 0, List.replicate 8 0⟩]⟩
  pktBuf := ⟨1, []⟩

/-- Ten bytes in three blocks, with slack in front of, behind and around them. -/
def tenBytes : PktBuffer where
  capacity := 10
  blkList := [some ⟨0, 3, 5, List.replicate 8 1⟩, some ⟨1, 2, 0, List.replicate 8 2⟩,
    some ⟨2, 5, 1, List.replicate 8 3⟩]
  pos := 0
  curBlk := .at 0
  blkOffset := some 5
  ref := 1

theorem setContHeader_contiguous_three_blocks : MakesContiguous lastFree tenBytes 6 := by
  have hpool : lastFree.Pool [⟨3, 0, 0, List.replicate 8 0⟩] := ⟨rfl, by decide⟩
  have hb : tenBytes.Holds 8 [⟨0, 3, 5, List.replicate 8 1⟩, ⟨1, 2, 0, List.replicate 8 2⟩,
      ⟨2, 5, 1, List.replicate 8 3⟩] := ⟨rfl, by decide, rfl, by decide⟩
  exact setContHeader_contiguous hpool hb (by decide) (by decide) 6

end PktBuffer

end TinyTcp.Pkt
