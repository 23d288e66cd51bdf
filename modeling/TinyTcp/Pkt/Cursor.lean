/-
TinyTcp.Pkt.Cursor — what one round of an access loop does, and the rule
for a whole walk.

With the cursor inside block `blk` at byte `k` of its window, the body of
a loop handles at most the `blk.size - k` bytes that are left of the
window; `move_forward` then stays in the block or steps to the next one.
So a round takes the cursor from byte `p` of the contents to byte `p + c`
with `0 < c`, and bytes `[p, p + c)` lie in one window. `walk_rule` turns
what a round preserves into what the walk preserves, by induction on the
fuel: the number of bytes still to go drops in every round.

The loops do not look at `m_capacity`, so the rounds are about `Reach`:
the list and the cursor alone. `Cursor.of_reach` gives the invariant of
the whole buffer back.
-/
import TinyTcp.Pkt.Blocks

namespace TinyTcp.Pkt

open TinyTcp.Lib

/-! ## Blocks up to their bytes -/

/-- The blocks without the bytes of their payloads. -/
def layout (blks : List PktBlock) : List (Nat × Nat × Nat) :=
  blks.map fun blk => (blk.addr, blk.size, blk.data)

theorem sizes_of_layout {blks blks' : List PktBlock} (h : layout blks' = layout blks) :
    sizes blks' = sizes blks := by
  have hmap := congrArg (fun l => (l.map fun t => t.2.1).sum) h
  simpa [layout, sizes, Function.comp_def] using hmap

theorem addrs_of_layout {blks blks' : List PktBlock} (h : layout blks' = layout blks) :
    addrs blks' = addrs blks := by
  have hmap := congrArg (fun l => l.map fun t => t.1) h
  simpa [layout, addrs, Function.comp_def] using hmap

/-- A block of the one list has the size and place of a block of the other. -/
theorem exists_of_layout {blks blks' : List PktBlock} (h : layout blks' = layout blks)
    {blk' : PktBlock} (hblk' : blk' ∈ blks') :
    ∃ blk ∈ blks, blk.size = blk'.size ∧ blk.data = blk'.data := by
  have hmem : (blk'.addr, blk'.size, blk'.data) ∈ layout blks := by
    rw [← h]
    exact List.mem_map_of_mem hblk'
  obtain ⟨blk, hblk, hsame⟩ := List.mem_map.mp hmem
  simp only [Prod.mk.injEq] at hsame
  exact ⟨blk, hblk, hsame.2⟩

theorem layout_set (pre post : List PktBlock) (blk : PktBlock) (payload : List UInt8) :
    layout (pre ++ { blk with payload := payload } :: post) = layout (pre ++ blk :: post) := by
  simp [layout]

namespace PktBuffer

/-- A cursor does not depend on the bytes. -/
theorem At.of_layout {cur : Iter} {off : Option Nat} {blks blks' : List PktBlock} {p : Nat}
    (h : At cur off blks p) (hl : layout blks' = layout blks) : At cur off blks' p := by
  cases h with
  | inside pre blk post k split lt hcur hoff =>
    rw [split] at hl
    simp only [layout, List.map_append, List.map_cons] at hl
    obtain ⟨pre', rest, hsplit, hpre, hrest⟩ := List.map_eq_append_iff.mp hl
    obtain ⟨blk', post', hcons, hblk, -⟩ := List.map_eq_cons_iff.mp hrest
    simp only [Prod.mk.injEq] at hblk
    obtain ⟨-, hsize, hdata⟩ := hblk
    have hlen : pre'.length = pre.length := by simpa using congrArg List.length hpre
    rw [← sizes_of_layout hpre]
    refine .inside pre' blk' post' k (by rw [hsplit, hcons]) (by rw [hsize]; exact lt) ?_ ?_
    · rw [hcur, hlen]
    · rw [hoff, hdata]
  | atEnd hcur hoff =>
    rw [← sizes_of_layout hl]
    exact .atEnd hcur hoff

/-! ## One round -/

section Round

variable {B : Nat} {b : PktBuffer} {pre post : List PktBlock} {blk : PktBlock} {k : Nat}

theorem derefCur_eq (hlist : b.blkList = (pre ++ blk :: post).map some)
    (hcur : b.curBlk = .at pre.length) : b.derefCur = .ok blk := by
  simp [derefCur, hcur, hlist]

theorem curBlkRemainSize_eq (hlist : b.blkList = (pre ++ blk :: post).map some)
    (hcur : b.curBlk = .at pre.length) (hoff : b.blkOffset = some (blk.data + k))
    (hk : k < blk.size) (hlt : blk.size < 2 ^ 32) :
    b.curBlkRemainSize = .ok (blk.size - k) := by
  have hsub : sub32 (blk.data + blk.size) (blk.data + k) = blk.size - k := by
    rw [sub32, wrapSub_eq (by omega) (by omega)]
    omega
  have hne : b.curBlk ≠ .done := by simp [hcur]
  simp only [curBlkRemainSize, if_neg hne, derefCur_eq hlist hcur, offset, hoff, ok_bind, hsub]

/-- `move_forward` stays in the block or goes to the start of the next one. -/
theorem moveForward_eq (hlist : b.blkList = (pre ++ blk :: post).map some)
    (hok : ∀ blk' ∈ pre ++ blk :: post, blk'.Ok B)
    (hcur : b.curBlk = .at pre.length) (hoff : b.blkOffset = some (blk.data + k))
    {c : Nat} (hc : k + c ≤ blk.size) :
    ∃ cur off, b.moveForward c =
        .ok { b with pos := add32 b.pos c, curBlk := cur, blkOffset := off } ∧
      At cur off (pre ++ blk :: post) (sizes pre + k + c) := by
  simp only [moveForward, derefCur_eq hlist hcur, offset, hoff, ok_bind]
  by_cases hin : k + c < blk.size
  · refine ⟨b.curBlk, some (blk.data + k + c), ?_, ?_⟩
    · rw [if_neg (by omega)]
    · have hoff' : some (blk.data + k + c) = some (blk.data + (k + c)) := by rw [Nat.add_assoc]
      rw [Nat.add_assoc (sizes pre)]
      exact .inside pre blk post (k + c) rfl hin hcur hoff'
  · have hsize : sizes pre + k + c = sizes pre + blk.size := by omega
    rw [if_pos (by omega), hsize]
    cases post with
    | nil =>
      refine ⟨.done, none, by simp [nextBlk, hcur, hlist], ?_⟩
      have hend : sizes pre + blk.size = sizes (pre ++ [blk]) := by simp
      rw [hend]
      exact .atEnd rfl rfl
    | cons next post =>
      refine ⟨.at (pre.length + 1), some next.data, by simp [nextBlk, hcur, hlist], ?_⟩
      have hpos : 0 < next.size := (hok next (by simp)).pos
      have hstart : sizes pre + blk.size = sizes (pre ++ [blk]) + 0 := by simp
      rw [hstart]
      exact .inside (pre ++ [blk]) next post 0 (by simp) hpos (by simp) rfl

theorem loadCur_eq (hlist : b.blkList = (pre ++ blk :: post).map some)
    (hok : blk.Ok B) (hcur : b.curBlk = .at pre.length)
    (hoff : b.blkOffset = some (blk.data + k)) {c : Nat} (hc : k + c ≤ blk.size) :
    b.loadCur c = .ok (slice blk.window k c) := by
  by_cases hzero : c = 0
  · simp [loadCur, hzero]
  · have hfits := hok.fits
    have hlen := hok.payload
    have hwin : slice blk.payload (blk.data + k) c = slice blk.window k c := by
      simp only [PktBlock.window, slice, List.drop_take, List.drop_drop, List.take_take]
      rw [Nat.min_eq_left (by omega)]
    simp only [loadCur, if_neg hzero, derefCur_eq hlist hcur, offset, hoff, ok_bind, load]
    rw [if_pos (by omega), hwin]

theorem storeCur_eq (hlist : b.blkList = (pre ++ blk :: post).map some)
    (hok : blk.Ok B) (hcur : b.curBlk = .at pre.length)
    (hoff : b.blkOffset = some (blk.data + k)) {xs : List UInt8} (hpos : 0 < xs.length)
    (hc : k + xs.length ≤ blk.size) :
    b.storeCur xs = .ok { b with
      blkList := (pre ++ { blk with
        payload := splice blk.payload (blk.data + k) xs } :: post).map some } := by
  have hfits := hok.fits
  have hlen := hok.payload
  simp only [storeCur, if_neg (show ¬ xs.length = 0 by omega), derefCur_eq hlist hcur, offset,
    hoff, ok_bind, store]
  rw [if_pos (by omega)]
  simp [hcur, hlist]

/-- The block with `xs` over the bytes of its window from `k` on. -/
theorem ok_store (hok : blk.Ok B) {xs : List UInt8} (hc : k + xs.length ≤ blk.size) :
    { blk with payload := splice blk.payload (blk.data + k) xs }.Ok B := by
  have hfits := hok.fits
  have hlen := hok.payload
  refine ⟨hok.pos, hok.fits, ?_⟩
  rw [← hok.payload]
  exact length_splice (by omega)

end Round

/-! ## Bytes of the contents and bytes of a window -/

section Content

variable {B : Nat} {pre post : List PktBlock} {blk : PktBlock} {k : Nat}

theorem slice_content (hok : ∀ blk' ∈ pre ++ blk :: post, blk'.Ok B) {c : Nat}
    (hc : k + c ≤ blk.size) :
    slice (content (pre ++ blk :: post)) (sizes pre + k) c = slice blk.window k c := by
  have hpre : (content pre).length = sizes pre :=
    content_length fun b hb => hok b (List.mem_append_left _ hb)
  have hwin : blk.window.length = blk.size := (hok blk (by simp)).window_length
  rw [content_append, content_cons, ← hpre, slice_append_right, slice_append_left (by omega)]

theorem content_store (hok : ∀ blk' ∈ pre ++ blk :: post, blk'.Ok B) {xs : List UInt8}
    (hc : k + xs.length ≤ blk.size) :
    content (pre ++ { blk with payload := splice blk.payload (blk.data + k) xs } :: post) =
      splice (content (pre ++ blk :: post)) (sizes pre + k) xs := by
  have hpre : (content pre).length = sizes pre :=
    content_length fun b hb => hok b (List.mem_append_left _ hb)
  have hblk : blk.Ok B := hok blk (by simp)
  have hfits := hblk.fits
  have hlen := hblk.payload
  have hwin : { blk with payload := splice blk.payload (blk.data + k) xs }.window =
      splice blk.window k xs := by
    dsimp only [PktBlock.window]
    exact slice_splice_inside (by omega) hc
  rw [content_append, content_cons, hwin, content_append, content_cons, ← hpre,
    splice_append_right, splice_append_left]
  rw [hblk.window_length]
  exact hc

end Content

/-! ## The window at the cursor -/

/-- The list is `blks` with the cursor at byte `p`, whatever `m_capacity` says. -/
structure Reach (B : Nat) (b : PktBuffer) (blks : List PktBlock) (p : Nat) : Prop where
  list : b.blkList = blks.map some
  ok : ∀ blk ∈ blks, blk.Ok B
  lt : ∀ blk ∈ blks, blk.size < 2 ^ 32
  pos : b.pos = p
  here : At b.curBlk b.blkOffset blks p

theorem size_le_sizes {blk : PktBlock} {blks : List PktBlock} (h : blk ∈ blks) :
    blk.size ≤ sizes blks := by
  obtain ⟨pre, post, rfl⟩ := List.append_of_mem h
  rw [sizes_append, sizes_cons]
  omega

theorem Cursor.reach {B : Nat} {b : PktBuffer} {blks : List PktBlock} {p : Nat}
    (h : b.Cursor B blks p) : b.Reach B blks p := by
  refine ⟨h.holds.list, h.holds.ok, ?_, h.pos, h.here⟩
  intro blk hblk
  exact Nat.lt_of_le_of_lt (size_le_sizes hblk) h.holds.lt

theorem Cursor.of_reach {B : Nat} {b b' : PktBuffer} {blks blks' : List PktBlock} {p q : Nat}
    (h : b.Cursor B blks p) (hr : b'.Reach B blks' q) (hl : layout blks' = layout blks)
    (hcap : b'.capacity = b.capacity) : b'.Cursor B blks' q := by
  have hsizes : sizes blks' = sizes blks := sizes_of_layout hl
  refine ⟨⟨hr.list, hr.ok, ?_, ?_⟩, ?_, hr.pos, hr.here⟩
  · rw [hcap, hsizes]
    exact h.holds.capacity
  · rw [hsizes]
    exact h.holds.lt
  · rw [hsizes]
    exact h.lt

/-- What a round may do to the buffer besides moving the cursor: it writes
into the payloads. -/
structure Touched (B : Nat) (b b' : PktBuffer) (blks blks' : List PktBlock) : Prop where
  eq : b' = { b with blkList := blks'.map some }
  layout : layout blks' = layout blks
  ok : ∀ blk ∈ blks', blk.Ok B

theorem Touched.refl {B : Nat} {b : PktBuffer} {blks : List PktBlock} {p : Nat}
    (h : b.Reach B blks p) : Touched B b b blks blks := by
  refine ⟨?_, rfl, h.ok⟩
  rw [← h.list]

theorem Touched.reach {B : Nat} {b b' : PktBuffer} {blks blks' : List PktBlock} {p : Nat}
    (ht : Touched B b b' blks blks') (h : b.Reach B blks p) : b'.Reach B blks' p := by
  rw [ht.eq]
  refine ⟨rfl, ht.ok, ?_, h.pos, h.here.of_layout ht.layout⟩
  intro blk' hblk'
  obtain ⟨blk, hblk, hsize, -⟩ := exists_of_layout ht.layout hblk'
  rw [← hsize]
  exact h.lt blk hblk

/-- `cur_blk_remain_size` reads no payload. -/
theorem Touched.curBlkRemainSize {B : Nat} {b b' : PktBuffer} {blks blks' : List PktBlock}
    {p : Nat} (ht : Touched B b b' blks blks') (h : b.Reach B blks p) :
    b'.curBlkRemainSize = b.curBlkRemainSize := by
  rw [ht.eq]
  simp only [PktBuffer.curBlkRemainSize, derefCur, offset, h.list]
  cases hcur : b.curBlk with
  | done => rfl
  | dangling => rfl
  | moved buf i => rfl
  | «at» i =>
    have hget := congrArg (fun l => l[i]?) ht.layout
    simp only [Pkt.layout, List.getElem?_map] at hget ⊢
    cases h₁ : blks[i]? with
    | none =>
      have h₂ : blks'[i]? = none := by
        cases h₂ : blks'[i]? with
        | none => rfl
        | some blk' => simp [h₁, h₂] at hget
      simp [h₂]
    | some blk =>
      cases h₂ : blks'[i]? with
      | none => simp [h₁, h₂] at hget
      | some blk' =>
        simp only [h₁, h₂, Option.map_some, Option.some.injEq, Prod.mk.injEq] at hget
        simp [hget.2.1, hget.2.2]

/-- The cursor at byte `p` has `r` bytes in front of it in the current window. -/
structure Round (B : Nat) (b : PktBuffer) (blks : List PktBlock) (p r : Nat) : Prop where
  pos : 0 < r
  remain : b.curBlkRemainSize = .ok r
  move : ∀ c ≤ r, p + c < 2 ^ 32 → ∃ b', b.moveForward c = .ok b' ∧ b'.Reach B blks (p + c) ∧
    b'.ref = b.ref ∧ b'.capacity = b.capacity
  load : ∀ c ≤ r, b.loadCur c = .ok (slice (content blks) p c)
  store : ∀ xs : List UInt8, 0 < xs.length → xs.length ≤ r →
    ∃ b' blks', b.storeCur xs = .ok b' ∧ Touched B b b' blks blks' ∧
      content blks' = splice (content blks) p xs

/-- Before the end there is such a window. -/
theorem Reach.round {B : Nat} {b : PktBuffer} {blks : List PktBlock} {p : Nat}
    (h : b.Reach B blks p) (hlt : p < sizes blks) : ∃ r, Round B b blks p r := by
  obtain ⟨pre, blk, post, k, hsplit, hk, hit, hoff, hp⟩ := h.here.exists_inside hlt
  have hmem : blk ∈ blks := by
    rw [hsplit]
    simp
  have hlist : b.blkList = (pre ++ blk :: post).map some := by rw [h.list, hsplit]
  have hok : ∀ blk' ∈ pre ++ blk :: post, blk'.Ok B := by
    rw [← hsplit]
    exact h.ok
  have hblk : blk.Ok B := h.ok blk hmem
  refine ⟨blk.size - k, by omega, curBlkRemainSize_eq hlist hit hoff hk (h.lt blk hmem), ?_, ?_, ?_⟩
  · intro c hc hbound
    obtain ⟨cur, off, heq, hat⟩ := moveForward_eq hlist hok hit hoff (show k + c ≤ blk.size by omega)
    have hpos : add32 b.pos c = p + c := by rw [h.pos, add32, wrapAdd_eq hbound]
    rw [← hsplit, ← hp] at hat
    exact ⟨_, heq, ⟨h.list, h.ok, h.lt, hpos, hat⟩, rfl, rfl⟩
  · intro c hc
    rw [hsplit, hp, slice_content hok (by omega)]
    exact loadCur_eq hlist hblk hit hoff (by omega)
  · intro xs hpos hxs
    have hc : k + xs.length ≤ blk.size := by omega
    refine ⟨_, _, storeCur_eq hlist hblk hit hoff hpos hc, ⟨rfl, ?_, ?_⟩, ?_⟩
    · rw [hsplit]
      exact layout_set pre post blk _
    · intro blk' hmem
      rcases List.mem_append.mp hmem with hpre | hrest
      · exact hok blk' (List.mem_append_left _ hpre)
      · rcases List.mem_cons.mp hrest with hself | hpost
        · rw [hself]
          exact ok_store hblk hc
        · exact hok blk' (List.mem_append_right _ (List.mem_cons_of_mem _ hpost))
    · rw [content_store hok hc, ← hsplit, hp]

/-- Writing leaves the window where it is. -/
theorem Round.touched {B : Nat} {b b' : PktBuffer} {blks blks' : List PktBlock} {p r : Nat}
    (hr : Round B b blks p r) (ht : Touched B b b' blks blks') (h : b.Reach B blks p)
    (hlt : p < sizes blks) : Round B b' blks' p r := by
  obtain ⟨r', hr'⟩ := (ht.reach h).round (by rw [sizes_of_layout ht.layout]; exact hlt)
  have heq : (.ok r' : Except Fault Nat) = .ok r := by
    rw [← hr'.remain, ht.curBlkRemainSize h, hr.remain]
  rw [← Except.ok.inj heq]
  exact hr'

/-! ## A whole walk -/

/-- **Walk rule.** `I done s blks` is kept by the access to the next `c`
bytes of the window at the cursor; so it holds after a walk over `total`
bytes, which ends with the cursor `total` bytes further. -/
theorem walk_rule {B : Nat} {σ : Type}
    (touch : σ → Nat → PktBuffer → Except Fault (σ × PktBuffer))
    (I : Nat → σ → List PktBlock → Prop) (start total : Nat) (hbound : start + total < 2 ^ 32)
    (htouch : ∀ b blks done s r c, b.Reach B blks (start + done) →
      Round B b blks (start + done) r → 0 < c → c ≤ r → done + c ≤ total → I done s blks →
      ∃ s' b' blks', touch s c b = .ok (s', b') ∧ Touched B b b' blks blks' ∧
        I (done + c) s' blks')
    (fuel n : Nat) (hfuel : n ≤ fuel) (done : Nat) (htotal : done + n = total) (s : σ)
    (b : PktBuffer) (blks : List PktBlock) (hcur : b.Reach B blks (start + done))
    (hfit : start + total ≤ sizes blks) (hI : I done s blks) :
    ∃ s' b' blks', walk touch fuel n s b = .ok (s', b') ∧ b'.Reach B blks' (start + total) ∧
      layout blks' = layout blks ∧ b'.ref = b.ref ∧ b'.capacity = b.capacity ∧
      I total s' blks' := by
  induction fuel generalizing n done s b blks with
  | zero =>
    obtain rfl : n = 0 := by omega
    obtain rfl : done = total := by omega
    exact ⟨s, b, blks, by simp [walk], hcur, rfl, rfl, rfl, hI⟩
  | succ fuel ih =>
    cases n with
    | zero =>
      obtain rfl : done = total := by omega
      exact ⟨s, b, blks, by simp [walk], hcur, rfl, rfl, rfl, hI⟩
    | succ n =>
      have hlt : start + done < sizes blks := by omega
      obtain ⟨r, hr⟩ := hcur.round hlt
      have hrpos := hr.pos
      obtain ⟨c, hcdef⟩ : ∃ c, c = min (n + 1) r := ⟨_, rfl⟩
      obtain ⟨s₁, b₁, blks₁, htouched, ht, hI₁⟩ :=
        htouch b blks done s r c hcur hr (by omega) (by omega) (by omega) hI
      obtain ⟨b₂, hmove, hcur₂, href₂, hcap₂⟩ :=
        (hr.touched ht hcur hlt).move c (by omega) (by omega)
      rw [Nat.add_assoc] at hcur₂
      have hfit₁ : start + total ≤ sizes blks₁ := by
        rw [sizes_of_layout ht.layout]
        exact hfit
      obtain ⟨s', b', blks', hwalk, hcur', hlayout, href, hcap, hI'⟩ :=
        ih (n + 1 - c) (by omega) (done + c) (by omega) s₁ b₂ blks₁ hcur₂ hfit₁ hI₁
      refine ⟨s', b', blks', ?_, hcur', hlayout.trans ht.layout, ?_, ?_, hI'⟩
      · simp only [walk, hr.remain, ok_bind, ← hcdef, htouched, hmove, hwalk]
      · rw [href, href₂, ht.eq]
      · rw [hcap, hcap₂, ht.eq]

end PktBuffer

end TinyTcp.Pkt
