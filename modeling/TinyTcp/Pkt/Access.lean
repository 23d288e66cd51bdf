/-
TinyTcp.Pkt.Access — `seek`, `read`, `write`, `fill` and `copy` on a buffer
with a coherent cursor.

For each operation there is the lemma for valid arguments (`_ok`) and the
one for the others (`_err`). The `_ok` lemmas instantiate `walk_rule`:
what a round keeps is that the bytes handled so far have been moved, the
rest of the contents being as it was. `copy` walks two buffers at once and
has its own induction, over the same round lemmas.
-/
import TinyTcp.Pkt.Cursor

namespace TinyTcp.Pkt.PktBuffer

open TinyTcp.Lib

variable {B : Nat} {b : PktBuffer} {blks : List PktBlock} {p : Nat}

/-- `m_capacity - m_pos` is the number of bytes left. -/
theorem Cursor.totalBlkRemain (h : b.Cursor B blks p) : b.totalBlkRemain = sizes blks - p := by
  have hle := h.here.le
  have hlt := h.lt
  rw [PktBuffer.totalBlkRemain, h.holds.capacity, h.pos, sub32, wrapSub_eq hle (by omega)]

/-! ## seek -/

/-- The walk of `seek` leaves blocks and bytes alone. -/
theorem walk_seek (h : b.Reach B blks p) {n : Nat} (hfit : p + n ≤ sizes blks)
    (hbound : p + n < 2 ^ 32) :
    ∃ b', walk (fun (_ : Unit) _ b => .ok ((), b)) (b.fuel n) n () b = .ok ((), b') ∧
      b'.Reach B blks (p + n) ∧ b'.ref = b.ref ∧ b'.capacity = b.capacity := by
  obtain ⟨s', b', blks', heq, hcur', -, href, hcap, hI⟩ :=
    walk_rule (fun (_ : Unit) _ b => .ok ((), b)) (fun _ _ blks' => blks' = blks) p n hbound
      (fun b blks done s r c hcur _ _ _ _ hI => ⟨(), b, blks, rfl, Touched.refl hcur, hI⟩)
      (b.fuel n) n (by simp only [fuel]; omega) 0 (Nat.zero_add n) () b blks h hfit rfl
  subst hI
  exact ⟨b', heq, hcur', href, hcap⟩

/-- Forwards the walk starts where the cursor is. -/
theorem seek_forward (h : b.Reach B blks p) {offset : Nat} (hp : p ≤ offset)
    (hcap : offset ≤ b.capacity) (hfit : offset ≤ sizes blks) (hbound : offset < 2 ^ 32) :
    ∃ b', b.seek offset = .ok (.ok, b') ∧ b'.Reach B blks offset ∧ b'.ref = b.ref ∧
      b'.capacity = b.capacity := by
  unfold seek
  by_cases hsame : b.pos = offset
  · rw [if_pos hsame]
    exact ⟨b, rfl, by rw [← hsame, h.pos]; exact h, rfl, rfl⟩
  · obtain ⟨b', heq, hcur', href, hcap'⟩ := walk_seek h (n := offset - p) (by omega) (by omega)
    have hsub : sub32 offset p = offset - p := wrapSub_eq (by omega) (by omega)
    have hsum : p + (offset - p) = offset := by omega
    rw [hsum] at hcur'
    refine ⟨b', ?_, hcur', href, hcap'⟩
    rw [if_neg hsame, if_neg (by omega), h.pos, if_neg (by omega)]
    simp only [ok_bind, hsub, heq]

theorem seek_ok (h : b.Cursor B blks p) {offset : Nat} (ho : offset ≤ b.capacity) :
    ∃ b', b.seek offset = .ok (.ok, b') ∧ b'.Cursor B blks offset ∧ b'.ref = b.ref := by
  have hlt := h.lt
  have hcap := h.holds.capacity
  by_cases hback : offset < p
  · -- backwards the walk starts again at the front
    cases hblks : blks with
    | nil =>
      have hle := h.here.le
      rw [hblks, sizes_nil] at hle
      omega
    | cons blk rest =>
      have hlist : b.blkList = some blk :: rest.map some := by
        rw [h.holds.list, hblks, List.map_cons]
      have hstart : b.rewound blks = { b with
          curBlk := .at 0, blkOffset := some blk.data, pos := 0 } := by
        simp [rewound, hblks]
      have hfront := h.holds.cursor_rewound hlt
      obtain ⟨b', heq, hcur', href, hcap'⟩ :=
        walk_seek hfront.reach (n := offset) (by omega) (by omega)
      have hcur := hfront.of_reach hcur' rfl hcap'
      rw [hstart] at heq href
      rw [Nat.zero_add, hblks] at hcur
      have hpos := h.pos
      refine ⟨b', ?_, hcur, href⟩
      rw [seek, if_neg (by omega), if_neg (by omega), if_pos (by omega)]
      simp only [hlist] at heq ⊢
      simp only [ok_bind, heq]
  · obtain ⟨b', heq, hcur', href, hcap'⟩ :=
      seek_forward h.reach (Nat.le_of_not_lt hback) ho (by omega) (by omega)
    exact ⟨b', heq, h.of_reach hcur' rfl hcap', href⟩

theorem seek_err {offset : Nat} (h : b.Cursor B blks p) (ho : b.capacity < offset) :
    b.seek offset = .ok (.size, b) := by
  have hle := h.le
  have hne : b.pos ≠ offset := by
    rw [h.pos]
    omega
  simp only [seek, if_neg hne, if_pos (show offset > b.capacity from ho)]

/-! ## write and fill -/

/-- A walk whose body stores the next bytes of `xs` writes `xs` at the
position. `side done` is the caller's side after `done` bytes. -/
theorem walk_store {σ : Type} (xs : List UInt8)
    (touch : σ → Nat → PktBuffer → Except Fault (σ × PktBuffer)) (side : Nat → σ)
    (htouch : ∀ done c b, done + c ≤ xs.length →
      touch (side done) c b = (do .ok (side (done + c), ← b.storeCur (slice xs done c))))
    (h : b.Reach B blks p) (hfit : p + xs.length ≤ sizes blks) (hbound : p + xs.length < 2 ^ 32) :
    ∃ b' blks', walk touch (b.fuel xs.length) xs.length (side 0) b = .ok (side xs.length, b') ∧
      b'.Reach B blks' (p + xs.length) ∧ layout blks' = layout blks ∧
      content blks' = splice (content blks) p xs ∧ b'.ref = b.ref ∧ b'.capacity = b.capacity := by
  have hlen : (content blks).length = sizes blks := content_length h.ok
  obtain ⟨s', b', blks', heq, hcur', hlayout, href, hcap, hs, hI⟩ :=
    walk_rule touch
      (fun done s blks' => s = side done ∧ layout blks' = layout blks ∧
        content blks' = splice (content blks) p (xs.take done))
      p xs.length hbound
      (fun b₁ blks₁ done s r c hcur hr hpos hc hle ⟨hs, hlay, hI⟩ => by
        have hnow : (slice xs done c).length = c := length_slice_of_le hle
        obtain ⟨b₂, blks₂, hstore, ht, hcontent⟩ := hr.store (slice xs done c) (by omega) (by omega)
        refine ⟨side (done + c), b₂, blks₂, ?_, ht, rfl, ht.layout.trans hlay, ?_⟩
        · rw [hs, htouch done c b₁ hle, hstore, ok_bind]
        · have hdone : (xs.take done).length = done := by
            rw [List.length_take]
            omega
          have htake : xs.take (done + c) = xs.take done ++ slice xs done c := by
            simp only [slice, List.take_add]
          have hnext := splice_splice
            (show p + (xs.take done).length ≤ (content blks).length by omega) (slice xs done c)
          rw [hdone] at hnext
          rw [hcontent, hI, hnext, htake])
      (b.fuel xs.length) xs.length (by simp only [fuel]; omega) 0 (Nat.zero_add _) (side 0) b blks
      h hfit ⟨rfl, rfl, by simp⟩
  rw [hs] at heq
  refine ⟨b', blks', heq, hcur', hlayout, ?_, href, hcap⟩
  rw [hI.2, List.take_length]

/-- `write` asks `m_capacity` for the number of bytes left, and then does not look at it. -/
theorem write_reach (h : b.Reach B blks p) {src : List UInt8} {size : Nat}
    (hsrc : size ≤ src.length) (hpos : 0 < size) (hremain : size ≤ b.totalBlkRemain)
    (hfit : p + size ≤ sizes blks) (hbound : p + size < 2 ^ 32) :
    ∃ b' blks', b.write (some src) size = .ok (.ok, b') ∧ b'.Reach B blks' (p + size) ∧
      layout blks' = layout blks ∧ content blks' = splice (content blks) p (src.take size) ∧
      b'.ref = b.ref ∧ b'.capacity = b.capacity := by
  have hlen : (src.take size).length = size := by
    rw [List.length_take]
    omega
  obtain ⟨b', blks', heq, hcur', hrest⟩ := walk_store (src.take size)
    (fun (src : List UInt8) c b => do
      let bytes ← load src 0 c
      let b ← b.storeCur bytes
      .ok (src.drop c, b))
    src.drop
    (fun done c b₁ hdone => by
      rw [hlen] at hdone
      have hload : load (src.drop done) 0 c = .ok (slice (src.take size) done c) := by
        rw [load, if_pos (by rw [List.length_drop]; omega)]
        simp only [slice, List.drop_zero, List.drop_take, List.take_take]
        rw [Nat.min_eq_left (by omega)]
      simp only [hload, ok_bind, List.drop_drop])
    h (by omega) (by omega)
  rw [hlen] at heq hcur'
  refine ⟨b', blks', ?_, hcur', hrest⟩
  rw [List.drop_zero] at heq
  simp only [write, if_neg (show ¬ size = 0 by omega),
    if_neg (show ¬ b.totalBlkRemain < size by omega), heq, ok_bind]

theorem write_ok (h : b.Cursor B blks p) {src : List UInt8} {size : Nat} (hsrc : size ≤ src.length)
    (hpos : 0 < size) (hfit : size ≤ sizes blks - p) :
    ∃ b' blks', b.write (some src) size = .ok (.ok, b') ∧ b'.Cursor B blks' (p + size) ∧
      layout blks' = layout blks ∧ content blks' = splice (content blks) p (src.take size) ∧
      b'.ref = b.ref := by
  have hle := h.here.le
  have hlt := h.lt
  obtain ⟨b', blks', heq, hcur', hlayout, hcontent, href, hcap⟩ :=
    write_reach h.reach hsrc hpos (by rw [h.totalBlkRemain]; exact hfit) (by omega) (by omega)
  exact ⟨b', blks', heq, h.of_reach hcur' hlayout hcap, hlayout, hcontent, href⟩

/-- `fill` asks `m_capacity` for the number of bytes left, and then does not look at it. -/
theorem fill_reach (h : b.Reach B blks p) (v : UInt8) {size : Nat} (hpos : 0 < size)
    (hremain : size ≤ b.totalBlkRemain) (hfit : p + size ≤ sizes blks)
    (hbound : p + size < 2 ^ 32) :
    ∃ b' blks', b.fill v size = .ok (.ok, b') ∧ b'.Reach B blks' (p + size) ∧
      layout blks' = layout blks ∧ content blks' = splice (content blks) p (List.replicate size v) ∧
      b'.ref = b.ref ∧ b'.capacity = b.capacity := by
  have hlen : (List.replicate size v).length = size := List.length_replicate
  obtain ⟨b', blks', heq, hcur', hrest⟩ := walk_store (List.replicate size v)
    (fun (_ : Unit) c b => do .ok ((), ← b.storeCur (List.replicate c v)))
    (fun _ => ())
    (fun done c b₁ hdone => by
      rw [hlen] at hdone
      have hbytes : slice (List.replicate size v) done c = List.replicate c v := by
        rw [slice, List.drop_replicate, List.take_replicate, Nat.min_eq_left (by omega)]
      rw [hbytes])
    h (by omega) (by omega)
  rw [hlen] at heq hcur'
  refine ⟨b', blks', ?_, hcur', hrest⟩
  simp only [fill, if_neg (show ¬ size = 0 by omega),
    if_neg (show ¬ b.totalBlkRemain < size by omega), heq, ok_bind]

theorem fill_ok (h : b.Cursor B blks p) (v : UInt8) {size : Nat} (hpos : 0 < size)
    (hfit : size ≤ sizes blks - p) :
    ∃ b' blks', b.fill v size = .ok (.ok, b') ∧ b'.Cursor B blks' (p + size) ∧
      layout blks' = layout blks ∧ content blks' = splice (content blks) p (List.replicate size v) ∧
      b'.ref = b.ref := by
  have hle := h.here.le
  have hlt := h.lt
  obtain ⟨b', blks', heq, hcur', hlayout, hcontent, href, hcap⟩ :=
    fill_reach h.reach v hpos (by rw [h.totalBlkRemain]; exact hfit) (by omega) (by omega)
  exact ⟨b', blks', heq, h.of_reach hcur' hlayout hcap, hlayout, hcontent, href⟩

/-! ## read -/

theorem read_ok (h : b.Cursor B blks p) {dest : List UInt8} {size : Nat}
    (hdest : size ≤ dest.length) (hpos : 0 < size) (hfit : size ≤ sizes blks - p) :
    ∃ b', b.read (some dest) size =
        .ok (.ok, some (splice dest 0 (slice (content blks) p size)), b') ∧
      b'.Cursor B blks (p + size) ∧ b'.ref = b.ref := by
  have hle := h.here.le
  have hlt := h.lt
  have hlen : (content blks).length = sizes blks := content_length h.holds.ok
  obtain ⟨s', b', blks', heq, hcur', hlayout, href, hcap, hs, hI⟩ :=
    walk_rule
      (fun (s : Nat × List UInt8) c b => do
        let bytes ← b.loadCur c
        let dest ← store s.2 s.1 bytes
        .ok ((s.1 + c, dest), b))
      (fun done s blks' =>
        s = (done, splice dest 0 (slice (content blks) p done)) ∧ blks' = blks)
      p size (by omega)
      (fun b₁ blks₁ done s r c hcur hr _ hc hle ⟨hs, hI⟩ => by
        have hload := hr.load c hc
        rw [hI] at hload
        have hdone : (slice (content blks) p done).length = done :=
          length_slice_of_le (by omega)
        have hnext : (slice (content blks) (p + done) c).length = c :=
          length_slice_of_le (by omega)
        have hspl : (splice dest 0 (slice (content blks) p done)).length = dest.length :=
          length_splice (by omega)
        have hall := splice_splice
          (show 0 + (slice (content blks) p done).length ≤ dest.length by omega)
          (slice (content blks) (p + done) c)
        rw [hdone, Nat.zero_add, ← slice_add] at hall
        refine ⟨(done + c, splice dest 0 (slice (content blks) p (done + c))), b₁, blks₁, ?_,
          Touched.refl hcur, rfl, hI⟩
        simp only [hs, hload, ok_bind, PktBuffer.store]
        rw [if_pos (by omega), hall, ok_bind])
      (b.fuel size) size (by simp only [fuel]; omega) 0 (Nat.zero_add _) (0, dest) b blks
      h.reach (by omega) ⟨by simp, rfl⟩
  have hcursor := h.of_reach hcur' hlayout hcap
  rw [hI] at hcursor
  rw [hs] at heq
  refine ⟨b', ?_, hcursor, href⟩
  simp only [read, if_neg (show ¬ size = 0 by omega), h.totalBlkRemain,
    if_neg (show ¬ sizes blks - p < size by omega), heq, ok_bind]

/-! ## copy -/

/-- The loop of `copy`: the bytes in front of both cursors, in both walks at once. -/
theorem copyLoop_ok {B' : Nat} {blks' : List PktBlock} (fuel n : Nat) (hfuel : n ≤ fuel)
    (dest src : PktBuffer) (blks : List PktBlock) (p q : Nat) (hdest : dest.Cursor B blks p)
    (hsrc : src.Cursor B' blks' q) (hp : p + n ≤ sizes blks) (hq : q + n ≤ sizes blks') :
    ∃ dest' src' blks₁, copyLoop fuel n dest src = .ok (dest', src') ∧
      dest'.Cursor B blks₁ (p + n) ∧ src'.Cursor B' blks' (q + n) ∧ layout blks₁ = layout blks ∧
      content blks₁ = splice (content blks) p (slice (content blks') q n) ∧
      dest'.ref = dest.ref ∧ src'.ref = src.ref := by
  induction fuel generalizing n dest src blks p q with
  | zero =>
    obtain rfl : n = 0 := by omega
    exact ⟨dest, src, blks, by simp [copyLoop], hdest, hsrc, rfl, by simp, rfl, rfl⟩
  | succ fuel ih =>
    cases n with
    | zero => exact ⟨dest, src, blks, by simp [copyLoop], hdest, hsrc, rfl, by simp, rfl, rfl⟩
    | succ n =>
      have hlt := hdest.lt
      have hlt' := hsrc.lt
      obtain ⟨r, hr⟩ := hdest.reach.round (by omega)
      obtain ⟨r', hr'⟩ := hsrc.reach.round (by omega)
      have hrpos := hr.pos
      have hrpos' := hr'.pos
      obtain ⟨c, hcdef⟩ : ∃ c, c = min (n + 1) (min r r') := ⟨_, rfl⟩
      have hlen' : (content blks').length = sizes blks' := content_length hsrc.holds.ok
      have hlen : (content blks).length = sizes blks := content_length hdest.holds.ok
      have hnow : (slice (content blks') q c).length = c := length_slice_of_le (by omega)
      have hload := hr'.load c (by omega)
      obtain ⟨dest₁, blks₁, hstore, ht, hcontent⟩ :=
        hr.store (slice (content blks') q c) (by omega) (by omega)
      obtain ⟨dest₂, hmove, hreach, hrefd, hcapd⟩ :=
        (hr.touched ht hdest.reach (by omega)).move c (by omega) (by omega)
      obtain ⟨src₂, hmove', hreach', hrefs, hcaps⟩ := hr'.move c (by omega) (by omega)
      have hdest₂ : dest₂.Cursor B blks₁ (p + c) :=
        hdest.of_reach hreach ht.layout (by rw [hcapd, ht.eq])
      have hsrc₂ : src₂.Cursor B' blks' (q + c) := hsrc.of_reach hreach' rfl hcaps
      have hp₂ : p + c + (n + 1 - c) ≤ sizes blks₁ := by
        rw [sizes_of_layout ht.layout]
        omega
      obtain ⟨dest', src', blks₂, hloop, hdest', hsrc', hlayout, hcontent', hrefd', hrefs'⟩ :=
        ih (n + 1 - c) (by omega) dest₂ src₂ blks₁ (p + c) (q + c) hdest₂ hsrc₂ hp₂ (by omega)
      have hpn : p + c + (n + 1 - c) = p + (n + 1) := by omega
      have hqn : q + c + (n + 1 - c) = q + (n + 1) := by omega
      rw [hpn] at hdest'
      rw [hqn] at hsrc'
      refine ⟨dest', src', blks₂, ?_, hdest', hsrc', hlayout.trans ht.layout, ?_, ?_, ?_⟩
      · simp only [copyLoop, hr.remain, hr'.remain, ok_bind, ← hcdef, hload, hstore, hmove, hmove',
          hloop]
      · have hnext := splice_splice
          (show p + (slice (content blks') q c).length ≤ (content blks).length by omega)
          (slice (content blks') (q + c) (n + 1 - c))
        rw [hnow, ← slice_add] at hnext
        have hsum : c + (n + 1 - c) = n + 1 := by omega
        rw [hcontent', hcontent, hnext, hsum]
      · rw [hrefd', hrefd, ht.eq]
      · rw [hrefs', hrefs]

theorem copy_ok {B' : Nat} {src : PktBuffer} {blks' : List PktBlock} {q size : Nat}
    (h : b.Cursor B blks p) (hsrc : src.Cursor B' blks' q) (hp : size ≤ sizes blks - p)
    (hq : size ≤ sizes blks' - q) :
    ∃ b' src' blks₁, b.copy src size = .ok (.ok, b', src') ∧
      b'.Cursor B blks₁ (p + size) ∧ src'.Cursor B' blks' (q + size) ∧
      layout blks₁ = layout blks ∧
      content blks₁ = splice (content blks) p (slice (content blks') q size) ∧
      b'.ref = b.ref ∧ src'.ref = src.ref := by
  have hple := h.here.le
  have hqle := hsrc.here.le
  obtain ⟨b', src', blks₁, heq, hrest⟩ := copyLoop_ok (b.fuel size + src.blkList.length) size
    (by simp only [fuel]; omega) b src blks p q h hsrc (by omega) (by omega)
  refine ⟨b', src', blks₁, ?_, hrest⟩
  rw [copy, h.totalBlkRemain, hsrc.totalBlkRemain, if_neg (by omega), heq]
  rfl

end TinyTcp.Pkt.PktBuffer
