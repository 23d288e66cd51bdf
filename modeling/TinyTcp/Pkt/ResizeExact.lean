/-
TinyTcp.Pkt.ResizeExact — whether `resize(n)` ends with `n` bytes.

Shrinking does, and so does growing an empty packet. Growing a packet
compares the slack behind the last window with the new size and not with
what is missing: a slack of at least `n` bytes is taken in for `n` MORE
bytes, and a smaller one that is still larger than what is missing makes
the number of bytes to allocate wrap around. `ResizeReaches` is what a
caller may expect of a call that reports success, and `reaches_iff` says
for which states before the call that is so.
-/
import TinyTcp.Pkt.Keeps

namespace TinyTcp.Pkt

open TinyTcp.Lib

namespace PktBuffer

variable {m : PktManager} {self : BufId} {b : PktBuffer} {n : Nat}
variable {blks init : List PktBlock} {tail : PktBlock}

/-- `n` bytes, as the capacity and as the sum of the blocks, each window in its
payload, and the old bytes at the front as far as there is room for them. -/
def ResizedTo (B : Nat) (b : PktBuffer) (n : Nat) (b' : PktBuffer) : Prop :=
  ∃ blks', b'.blkList = blks'.map some ∧ (∀ blk ∈ blks', blk.Ok B) ∧ b'.capacity = n ∧
    sizes blks' = n ∧ b'.bytes.take (min n b.capacity) = b.bytes.take (min n b.capacity)

/-- What a caller may expect of a call that returns `NET_ERR_OK`. -/
def ResizeReaches (m : PktManager) (self : BufId) (b : PktBuffer) (n : Nat) : Prop :=
  ∀ m' b', resize m self b n = .ok (.ok, m', b') → ResizedTo m.blkSize b n b'

/-- The packet does not grow, or is empty, or the slack behind the last window is
part of the new size; or the pool cannot give what the difference wraps around to. -/
def GrowsExactly (m : PktManager) (b : PktBuffer) (n : Nat) : Prop :=
  n ≤ b.capacity ∨ b.capacity = 0 ∨ b.capacity + b.backSlack m.blkSize ≤ n ∨
    (b.backSlack m.blkSize < n ∧
      m.freeBytes < n + 2 ^ 32 - (b.capacity + b.backSlack m.blkSize))

instance (m : PktManager) (b : PktBuffer) (n : Nat) : Decidable (GrowsExactly m b n) := by
  unfold GrowsExactly
  infer_instance

theorem reaches_iff_resizedTo {m' : PktManager} {b' : PktBuffer}
    (h : resize m self b n = .ok (.ok, m', b')) :
    ResizeReaches m self b n ↔ ResizedTo m.blkSize b n b' := by
  constructor
  · intro hreach
    exact hreach m' b' h
  · intro hresized m'' b'' heq
    rw [h] at heq
    obtain ⟨-, rfl⟩ : m' = m'' ∧ b' = b'' := by simpa using heq
    exact hresized

/-- Without room, and across the end of the list, the call does not report success. -/
theorem reaches_of_not_ok (h : ∀ m' b', resize m self b n ≠ .ok (.ok, m', b')) :
    ResizeReaches m self b n :=
  fun m' b' heq => absurd heq (h m' b')

theorem ResizedTo.of_holds {B : Nat} {b' : PktBuffer} {blks' : List PktBlock}
    (hb : b'.Holds B blks') (hcap : b'.capacity = n)
    (hbytes : b'.bytes.take (min n b.capacity) = b.bytes.take (min n b.capacity)) :
    ResizedTo B b n b' :=
  ⟨blks', hb.list, hb.ok, hcap, by rw [← hb.capacity, hcap], hbytes⟩

/-! ## Shrinking -/

/-- The last block with the first `c` bytes of its window. -/
theorem cut_tail_content {c : Nat} (hc : c ≤ tail.size) :
    content (init ++ [{ tail with size := c }]) = content init ++ tail.window.take c := by
  have hwin : { tail with size := c }.window = tail.window.take c := by
    simp only [PktBlock.window, slice, List.take_take]
    rw [Nat.min_eq_left hc]
  simp only [content_append, content_cons, content_nil, List.append_nil, hwin]

theorem reaches_shrink (hb : b.Holds m.blkSize blks) (h1 : 1 ≤ n) (hn : n < b.capacity) :
    ResizeReaches m self b n := by
  by_cases hcut : n ≤ sizes blks.dropLast
  · refine reaches_of_not_ok fun m' b' heq => ?_
    rw [resize_fault self hb h1 hn hcut] at heq
    cases heq
  · obtain ⟨init, tail, rfl⟩ := hb.exists_last (show b.capacity ≠ 0 by omega)
    rw [List.dropLast_concat] at hcut
    have hcap := hb.capacity
    have hlt := hb.lt
    have hfits := (hb.ok tail (by simp)).fits
    have hinit : (content init).length = sizes init :=
      content_length fun blk h => hb.ok blk (List.mem_append_left _ h)
    rw [sizes_append, sizes_cons, sizes_nil] at hcap hlt
    have hholds := resize_last_holds hb (n - sizes init) n (by omega) (by omega) (by omega)
      (by omega)
    rw [reaches_iff_resizedTo (resize_shrink self hb (Nat.lt_of_not_le hcut) hn)]
    refine ResizedTo.of_holds hholds rfl ?_
    rw [Nat.min_eq_left (Nat.le_of_lt hn), hholds.bytes, hb.bytes, cut_tail_content (by omega),
      content_append, content_cons, content_nil, List.append_nil, List.take_append, hinit,
      List.take_append, hinit, List.take_take, Nat.min_self]

/-! ## Growing -/

/-- An empty packet gets all its bytes from the pool. -/
theorem reaches_empty (hm : m.Sound) (hb : b.Holds m.blkSize blks) (hzero : b.capacity = 0)
    (h1 : 1 ≤ n) (hlt : n < 2 ^ 32) : ResizeReaches m self b n := by
  have hsum : b.capacity + n < 2 ^ 32 := by omega
  have heq := resize_empty (m := m) self (show n ≠ b.capacity by omega) hzero
  by_cases henough : n ≤ m.freeBytes
  · obtain ⟨m', blks', halloc, -, -, hholds, hsizes⟩ :=
      alloc_rewinds hm hb hsum henough false false
    simp only [halloc, ok_bind, if_true] at heq
    rw [reaches_iff_resizedTo heq]
    refine ResizedTo.of_holds hholds ?_ ?_
    · rw [hholds.capacity, hsizes, hzero, Nat.zero_add]
    · rw [hzero, Nat.min_zero, List.take_zero, List.take_zero]
  · obtain ⟨m', halloc, -⟩ :=
      alloc_fails hm hb.capacity_lt (Nat.lt_of_not_le henough) false false
    simp only [halloc, ok_bind, Bool.false_eq_true, if_false] at heq
    refine reaches_of_not_ok fun m'' b'' heq' => ?_
    rw [heq] at heq'
    cases heq'

/-- A slack of `n` bytes: the packet ends with `n` more bytes, and not with `n`. -/
theorem not_reaches_inPlace (hm : m.Sound) (hb : b.Holds m.blkSize (init ++ [tail]))
    (hzero : b.capacity ≠ 0) (hgrow : b.capacity < n) (hin : n ≤ slack m.blkSize tail) :
    ¬ ResizeReaches m self b n := by
  have hB := hm.blkSize_lt
  have heq := resize_inPlace self hb.list (hb.ok tail (by simp)) (by omega) hzero hgrow hin
  rw [reaches_iff_resizedTo heq]
  rintro ⟨blks', -, -, hcap, -⟩
  have hwrap : (b.capacity + n) % 2 ^ 32 = n := hcap
  omega

/-- What is asked for behind `cap` bytes: the missing bytes, or by `2 ^ 32` too many. -/
theorem need_cases {cap c : Nat} (hgrow : cap < n) (hn : n < 2 ^ 32) (hc : c < n) :
    (cap + c ≤ n ∧ cap + c + sub32 n (add32 cap c) = n) ∨
      (n < cap + c ∧ cap + c + sub32 n (add32 cap c) = n + 2 ^ 32) := by
  simp only [sub32, add32, wrapSub, wrapAdd]
  omega

/-- A smaller slack is taken in, and the rest, as the code computes it, allocated. -/
theorem reaches_stretch (hm : m.Sound) (hb : b.Holds m.blkSize (init ++ [tail]))
    (hzero : b.capacity ≠ 0) (hgrow : b.capacity < n) (hn : n < 2 ^ 32)
    (hin : slack m.blkSize tail < n) :
    ResizeReaches m self b n ↔ b.capacity + slack m.blkSize tail ≤ n ∨
      m.freeBytes < n + 2 ^ 32 - (b.capacity + slack m.blkSize tail) := by
  obtain ⟨free, hpool⟩ := hm.pool
  have hroom := hm.room
  rw [hpool.items, List.length_map] at hroom
  rw [hpool.freeBytes]
  have hB := hm.blkSize_lt
  have htail := hb.ok tail (by simp)
  have hfits := htail.fits
  have hsizes := hb.capacity
  rw [sizes_append, sizes_cons, sizes_nil] at hsizes
  have heq := resize_stretch self hb.list htail (by omega) hzero hgrow hin
  obtain ⟨c, hc⟩ : ∃ c, c = slack m.blkSize tail := ⟨_, rfl⟩
  have hslack : c = m.blkSize - (tail.data + tail.size) := hc
  rw [← hc] at hin ⊢
  have hsize : add32 tail.size c = tail.size + c := wrapAdd_eq (by omega)
  have hlist : (b.stretched m.blkSize init tail).blkList =
      (init ++ [{ tail with size := tail.size + c }]).map some := by
    rw [stretched, ← hc, hsize]
  have hcap : (b.stretched m.blkSize init tail).capacity = add32 b.capacity c := by
    rw [stretched, ← hc]
  have hcapLt : add32 b.capacity c < 2 ^ 32 := Nat.mod_lt _ (by decide)
  rw [hcap] at heq
  have hneed := need_cases hgrow hn hin
  obtain ⟨need, hneedDef⟩ : ∃ need, need = sub32 n (add32 b.capacity c) := ⟨_, rfl⟩
  rw [← hneedDef] at heq hneed
  by_cases henough : need ≤ free.length * m.blkSize
  · obtain ⟨new, rest, hcarved, halloc⟩ :=
      alloc_ok hpool hm.blkSize_pos hlist henough false false
    simp only [halloc, ok_bind, if_true] at heq
    have hall : sizes (init ++ [{ tail with size := tail.size + c }] ++ new) =
        b.capacity + c + need := by
      rw [sizes_append, sizes_append, sizes_cons, sizes_nil, hcarved.sizes]
      change sizes init + (tail.size + c + 0) + need = _
      omega
    rw [reaches_iff_resizedTo heq]
    constructor
    · rintro ⟨blks', hlist', -, -, hsizes', -⟩
      have hblks : init ++ [{ tail with size := tail.size + c }] ++ new = blks' :=
        map_some_injective hlist'
      rw [hblks, hsizes'] at hall
      omega
    · intro hfit
      have hle : b.capacity + c ≤ n := by omega
      refine ⟨_, rfl, ?_, ?_, ?_, ?_⟩
      · intro blk hblk
        rcases mem_joined.mp hblk with hnew | hold
        · exact hcarved.ok blk hnew
        · exact grown_tail_ok hb.ok (by omega) blk hold
      · change add32 (b.stretched m.blkSize init tail).capacity need = n
        rw [hcap, hneedDef, add32, sub32, wrapAdd_wrapSub hcapLt hn]
      · change sizes (init ++ [{ tail with size := tail.size + c }] ++ new) = n
        omega
      · have hlen := hb.bytes_length
        rw [Nat.min_eq_right (Nat.le_of_lt hgrow), bytes_of_list rfl]
        change (content (init ++ [{ tail with size := tail.size + c }] ++ new)).take _ = _
        rw [content_append, grown_tail_content, ← hb.bytes, List.append_assoc,
          List.take_append_of_le_length (by omega)]
  · obtain ⟨free', -, -, halloc⟩ := alloc_short hpool hroom
      (by rw [hcap]; exact hcapLt) (Nat.lt_of_not_le henough) false false
    simp only [halloc, ok_bind, Bool.false_eq_true, if_false] at heq
    refine iff_of_true (reaches_of_not_ok fun m' b' heq' => ?_) (by omega)
    rw [heq] at heq'
    cases heq'

/-! ## The condition -/

/-- **resize reaches the requested size** exactly if growing does not take a slack for
missing bytes that is larger than what is missing. -/
theorem reaches_iff (self : BufId) (hm : m.Sound) (hb : b.Holds m.blkSize blks) (h1 : 1 ≤ n)
    (hn : n < 2 ^ 32) : ResizeReaches m self b n ↔ GrowsExactly m b n := by
  by_cases hsame : n = b.capacity
  · refine iff_of_true ?_ (Or.inl (Nat.le_of_eq hsame))
    rw [reaches_iff_resizedTo (resize_same self hsame)]
    exact ResizedTo.of_holds hb hsame.symm rfl
  by_cases hshrink : n < b.capacity
  · exact iff_of_true (reaches_shrink hb h1 hshrink) (Or.inl (Nat.le_of_lt hshrink))
  by_cases hzero : b.capacity = 0
  · exact iff_of_true (reaches_empty hm hb hzero h1 hn) (Or.inr (Or.inl hzero))
  obtain ⟨init, tail, rfl⟩ := hb.exists_last hzero
  have hgrow : b.capacity < n := by omega
  have hB := hm.blkSize_lt
  rw [GrowsExactly, (Cursor.backSlack_eq hb hB).1]
  by_cases hin : n ≤ slack m.blkSize tail
  · exact iff_of_false (not_reaches_inPlace hm hb hzero hgrow hin) (by omega)
  · rw [reaches_stretch hm hb hzero hgrow hn (Nat.lt_of_not_le hin)]
    omega

/-- Two blocks of eight bytes are free. -/
def twoBlocksFree : PktManager where
  blkSize := 8
  pktBlk := ⟨2, [some ⟨1, 0, 0, List.replicate 8 0⟩, some ⟨2, 0, 0, List.replicate 8 0⟩]⟩
  pktBuf := ⟨1, []⟩

/-- Two bytes with `slack` unused ones behind them. -/
def twoBytes (slack : Nat) : PktBuffer where
  capacity := 2
  blkList := [some ⟨0, 2, 6 - slack, [1, 2, 3, 4, 5, 6, 7, 8]⟩]
  pos := 0
  curBlk := .at 0
  blkOffset := some (6 - slack)
  ref := 1

theorem twoBlocksFree_sound : twoBlocksFree.Sound :=
  ⟨by decide, by decide, ⟨[⟨1, 0, 0, List.replicate 8 0⟩, ⟨2, 0, 0, List.replicate 8 0⟩], rfl,
    by decide⟩, by decide⟩

theorem reaches_small_slack : ResizeReaches twoBlocksFree 0 (twoBytes 3) 12 := by
  have hb : (twoBytes 3).Holds 8 [⟨0, 2, 3, [1, 2, 3, 4, 5, 6, 7, 8]⟩] :=
    ⟨rfl, by decide, rfl, by decide⟩
  exact (reaches_iff 0 twoBlocksFree_sound hb (by decide) (by decide)).mpr (by decide)

/-- With six bytes of slack behind them, `resize(5)` makes seven bytes of the two. -/
theorem not_reaches_large_slack :
    twoBlocksFree.Sound ∧ (twoBytes 6).Holds 8 [⟨0, 2, 0, [1, 2, 3, 4, 5, 6, 7, 8]⟩] ∧
      ¬ ResizeReaches twoBlocksFree 0 (twoBytes 6) 5 := by
  refine ⟨twoBlocksFree_sound, ⟨rfl, by decide, rfl, by decide⟩, fun h => ?_⟩
  have hcall : resize twoBlocksFree 0 (twoBytes 6) 5 = .ok (.ok, twoBlocksFree, { twoBytes 6 with
      capacity := 7, blkList := [some ⟨0, 7, 0, [1, 2, 3, 4, 5, 6, 7, 8]⟩] }) := by decide
  obtain ⟨blks', -, -, hcap, -⟩ := h _ _ hcall
  cases hcap

end PktBuffer

end TinyTcp.Pkt
