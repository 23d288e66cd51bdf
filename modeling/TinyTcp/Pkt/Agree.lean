/-
TinyTcp.Pkt.Agree — what the calls on some packets do not see.

`mine` are the packets of one user. Two of the objects agree when they are
the same but for `m_blk_offset`, and there too while `m_cur_blk` is at a
block (`Agree`); two programs agree when their pools are the same and all
packets of the user agree (`World.Agree`). The other packets may be
anything, so no cursor of the user's may be in one of them.

Every call on the user's packets has the same answer in programs that
agree, and they agree again (`World.Agree.use`): the layout operations
never read `m_blk_offset`, and the others go wrong before they read it when
the cursor is nowhere.
-/
import TinyTcp.Pkt.Carried

namespace TinyTcp.Pkt

open TinyTcp.Lib

/-- The iterator is at a block. -/
def Iter.isNode : Iter → Bool
  | .at _ | .moved .. => true
  | _ => false

structure Agree (mine : Set BufId) (b c : PktBuffer) : Prop where
  capacity : b.capacity = c.capacity
  blkList : b.blkList = c.blkList
  pos : b.pos = c.pos
  curBlk : b.curBlk = c.curBlk
  ref : b.ref = c.ref
  blkOffset : b.curBlk.isNode = true → b.blkOffset = c.blkOffset
  inside : ∀ j k, b.curBlk = .moved j k → j ∈ mine

namespace Agree

variable {mine : Set BufId} {b c : PktBuffer} {m : PktManager}

theorem refl (h : ∀ j k, b.curBlk = .moved j k → j ∈ mine) : Agree mine b b :=
  ⟨rfl, rfl, rfl, rfl, rfl, fun _ => rfl, h⟩

/-- They differ in `m_blk_offset` alone. -/
theorem eq_with (h : Agree mine b c) : c = { b with blkOffset := c.blkOffset } := by
  obtain ⟨capacity, blkList, pos, curBlk, blkOffset, ref⟩ := c
  obtain ⟨rfl, rfl, rfl, rfl, rfl, -, -⟩ := h
  rfl

theorem totalBlkRemain (h : Agree mine b c) : b.totalBlkRemain = c.totalBlkRemain := by
  unfold PktBuffer.totalBlkRemain
  rw [h.capacity, h.pos]

theorem layout (h : Agree mine b c) (blks : List BlkPtr) (capacity : Nat) :
    Agree mine { b with blkList := blks, capacity := capacity }
      { c with blkList := blks, capacity := capacity } :=
  ⟨rfl, rfl, h.pos, h.curBlk, h.ref, h.blkOffset, h.inside⟩

/-- A cursor that moves with its list, and is at a block only if it was before. -/
theorem cursor (h : Agree mine b c) {f : Iter → Iter}
    (hnode : ∀ it, (f it).isNode = true → it.isNode = true)
    (hmoved : ∀ it j k, f it = .moved j k → it = .moved j k ∨ j ∈ mine) :
    Agree mine { b with curBlk := f b.curBlk } { c with curBlk := f c.curBlk } where
  capacity := h.capacity
  blkList := h.blkList
  pos := h.pos
  curBlk := congrArg f h.curBlk
  ref := h.ref
  blkOffset := fun hn => h.blkOffset (hnode _ hn)
  inside := by
    intro j k hjk
    rcases hmoved _ j k hjk with hold | hmine
    · exact h.inside j k hold
    · exact hmine

theorem addRef (h : Agree mine b c) : Agree mine b.addRef c.addRef :=
  ⟨h.capacity, h.blkList, h.pos, h.curBlk, congrArg (· + 1) h.ref, h.blkOffset, h.inside⟩

theorem resetAccess (h : Agree mine b c) : Related (Agree mine) b.resetAccess c.resetAccess := by
  rw [h.eq_with]
  unfold PktBuffer.resetAccess
  dsimp only
  split
  · exact .ok (refl fun j k hk => by cases hk)
  · exact .error _
  · exact .ok (refl fun j k hk => by cases hk)

/-! ## The layout -/

theorem pushed_cursor (h : Agree mine b c) :
    Agree mine { b with curBlk := b.curBlk.pushed } { c with curBlk := c.curBlk.pushed } := by
  refine h.cursor (fun it hit => ?_) fun it j k hit => ?_
  · cases it <;> simp_all [Iter.pushed, Iter.isNode]
  · cases it <;> simp_all [Iter.pushed]

theorem erased_cursor (h : Agree mine b c) (start n : Nat) :
    Agree mine { b with curBlk := b.curBlk.erased start n }
      { c with curBlk := c.curBlk.erased start n } := by
  refine h.cursor (fun it hit => ?_) fun it j k hit => ?_
  · cases it <;> simp_all [Iter.erased, Iter.isNode]
  · cases it with
    | «at» l =>
      simp only [Iter.erased] at hit
      split_ifs at hit
    | _ => exact .inl hit

theorem lost_cursor (h : Agree mine b c) :
    Agree mine { b with curBlk := b.curBlk.lost } { c with curBlk := c.curBlk.lost } := by
  refine h.cursor (fun it hit => ?_) fun it j k hit => ?_
  · cases it <;> simp_all [Iter.lost, Iter.isNode]
  · cases it <;> simp_all [Iter.lost]

/-- A packet that has been merged into one of the user's. -/
theorem spliced (h : Agree mine b c) {buf : BufId} (hbuf : buf ∈ mine) (n : Nat) :
    Agree mine { b with blkList := [], curBlk := b.curBlk.spliced buf n }
      { c with blkList := [], curBlk := c.curBlk.spliced buf n } := by
  have hcur : Agree mine { b with curBlk := b.curBlk.spliced buf n }
      { c with curBlk := c.curBlk.spliced buf n } := by
    refine h.cursor (fun it hit => ?_) fun it j k hit => ?_
    · cases it <;> simp_all [Iter.spliced, Iter.isNode]
    · cases it <;> simp_all [Iter.spliced]
  exact ⟨hcur.capacity, rfl, hcur.pos, hcur.curBlk, hcur.ref, hcur.blkOffset, hcur.inside⟩

theorem pushFront (h : Agree mine b c) (ptr : BlkPtr) :
    Agree mine (b.pushFront ptr) (c.pushFront ptr) := by
  unfold PktBuffer.pushFront
  rw [h.blkList, h.capacity]
  exact h.pushed_cursor.layout (ptr :: c.blkList) c.capacity

theorem pushBack (h : Agree mine b c) (ptr : BlkPtr) :
    Agree mine (b.pushBack ptr) (c.pushBack ptr) := by
  unfold PktBuffer.pushBack
  rw [h.blkList, h.capacity]
  exact h.layout (c.blkList ++ [ptr]) c.capacity

theorem foldl {push : PktBuffer → BlkPtr → PktBuffer}
    (hpush : ∀ {b c}, Agree mine b c → ∀ ptr, Agree mine (push b ptr) (push c ptr))
    (ptrs : List BlkPtr) (h : Agree mine b c) : Agree mine (ptrs.foldl push b) (ptrs.foldl push c) := by
  induction ptrs generalizing b c with
  | nil => exact h
  | cons ptr ptrs ih => exact ih (hpush h ptr)

/-- The same answer and pools, and packets that agree. -/
def SameAnswer {α : Type} (mine : Set BufId) (r r' : α × PktManager × PktBuffer) : Prop :=
  r.1 = r'.1 ∧ r.2.1 = r'.2.1 ∧ Agree mine r.2.2 r'.2.2

theorem alloc (h : Agree mine b c) (m : PktManager) (size : Nat) (allocFront insertFront : Bool) :
    Related (SameAnswer mine) (PktBuffer.alloc m b size allocFront insertFront)
      (PktBuffer.alloc m c size allocFront insertFront) := by
  unfold PktBuffer.alloc
  rw [h.capacity]
  refine .bind_same fun r => ?_
  obtain ⟨ok, blks, free⟩ := r
  have hset : ∀ capacity, Agree mine { b with capacity := capacity, ref := 1 }
      { c with capacity := capacity, ref := 1 } := fun capacity =>
    ⟨rfl, h.blkList, h.pos, h.curBlk, rfl, h.blkOffset, h.inside⟩
  dsimp only
  split
  · exact .ok ⟨rfl, rfl, hset _⟩
  · refine (resetAccess ?_).bind fun b' c' h' => .ok ⟨rfl, rfl, h'⟩
    split
    · split
      · exact foldl pushFront _ (hset _)
      · exact foldl pushFront _ (hset _)
    · split
      · exact foldl pushBack _ (hset _)
      · exact foldl pushBack _ (hset _)

theorem free (h : Agree mine b c) (m : PktManager) (self : BufId) :
    (PktBuffer.free m self b).1 = (PktBuffer.free m self c).1 ∧
      Agree mine (PktBuffer.free m self b).2 (PktBuffer.free m self c).2 := by
  have href : Agree mine { b with ref := b.ref - 1 } { c with ref := c.ref - 1 } :=
    ⟨h.capacity, h.blkList, h.pos, h.curBlk, congrArg (· - 1) h.ref, h.blkOffset, h.inside⟩
  unfold PktBuffer.free
  dsimp only
  rw [h.ref, h.blkList]
  rw [h.ref] at href
  split
  · exact ⟨rfl, href.lost_cursor.layout [] 0⟩
  · exact ⟨rfl, h.blkList ▸ href⟩

theorem allocHeader (h : Agree mine b c) (m : PktManager) (size : Nat) (isCont : Bool) :
    Related (SameAnswer mine) (PktBuffer.allocHeader m b size isCont)
      (PktBuffer.allocHeader m c size isCont) := by
  unfold PktBuffer.allocHeader
  rw [h.blkList, h.capacity]
  split
  · exact .ok ⟨rfl, rfl, h⟩
  · exact .error _
  dsimp only
  split
  · exact .ok ⟨rfl, rfl, h.layout ..⟩
  split
  · split
    · exact .ok ⟨rfl, rfl, h⟩
    · refine .bind_same fun r => ?_
      obtain ⟨blk, m'⟩ := r
      cases blk with
      | none => exact .ok ⟨rfl, rfl, h.pushFront none⟩
      | some blk =>
        have hfront := h.pushFront (some { blk with data := m'.blkSize - size, size := size })
        exact .ok ⟨rfl, rfl, rfl, hfront.blkList, hfront.pos, hfront.curBlk, hfront.ref,
          hfront.blkOffset, hfront.inside⟩
  · refine ((h.layout _ _).alloc m _ true true).bind fun r r' hr => ?_
    obtain ⟨ok, m₁, b₁⟩ := r
    obtain ⟨ok', m₂, c₁⟩ := r'
    obtain ⟨rfl, rfl, hagree⟩ := hr
    dsimp only
    split
    · exact .ok ⟨rfl, rfl, hagree⟩
    · exact .ok ⟨rfl, rfl, hagree⟩

theorem removeHeader (h : Agree mine b c) (m : PktManager) (size : Nat) :
    Related (SameAnswer mine) (PktBuffer.removeHeader m b size) (PktBuffer.removeHeader m c size) := by
  unfold PktBuffer.removeHeader
  rw [h.blkList, h.capacity]
  split
  · exact .error _
  · exact .bind_same fun r => .ok ⟨rfl, rfl, (h.erased_cursor ..).layout ..⟩

theorem setContHeader (h : Agree mine b c) (m : PktManager) (size : Nat) :
    Related (SameAnswer mine) (PktBuffer.setContHeader m b size) (PktBuffer.setContHeader m c size) := by
  unfold PktBuffer.setContHeader
  rw [h.blkList, h.capacity]
  split
  · exact .ok ⟨rfl, rfl, h⟩
  split
  · exact .ok ⟨rfl, rfl, h⟩
  split
  · exact .error _
  · exact .error _
  dsimp only
  split
  · exact .ok ⟨rfl, rfl, h⟩
  · refine .bind_same fun bytes => .bind_same fun payload => .bind_same fun r => ?_
    exact .ok ⟨rfl, rfl, (h.erased_cursor ..).layout ..⟩

/-- A call of `alloc` in `resize`. -/
theorem grow (h : Agree mine b c) (m : PktManager) (size : Nat) :
    Related (SameAnswer mine)
      (PktBuffer.alloc m b size false false >>= fun r =>
        if r.1 then .ok (NetErr.ok, r.2.1, r.2.2) else .ok (NetErr.mem, r.2.1, r.2.2))
      (PktBuffer.alloc m c size false false >>= fun r =>
        if r.1 then .ok (NetErr.ok, r.2.1, r.2.2) else .ok (NetErr.mem, r.2.1, r.2.2)) := by
  refine (h.alloc m size false false).bind fun r r' hr => ?_
  rw [hr.1, hr.2.1]
  split
  · exact .ok ⟨rfl, rfl, hr.2.2⟩
  · exact .ok ⟨rfl, rfl, hr.2.2⟩

theorem resize (h : Agree mine b c) (m : PktManager) (self : BufId) (size : Nat) :
    Related (SameAnswer mine) (PktBuffer.resize m self b size) (PktBuffer.resize m self c size) := by
  unfold PktBuffer.resize
  rw [h.blkList, h.capacity]
  split
  · exact .ok ⟨rfl, rfl, h⟩
  split
  · exact grow h m size
  split
  · refine .bind_same fun r => ?_
    dsimp only
    split
    · exact .ok ⟨rfl, rfl, h.layout ..⟩
    · exact grow (h.layout ..) m _
  split
  · obtain ⟨hm, hb⟩ := h.free m self
    exact .ok ⟨rfl, hm, hb⟩
  · refine .bind_same fun r => .bind_same fun s => .bind_same fun t => ?_
    exact .ok ⟨rfl, rfl, (h.erased_cursor ..).layout ..⟩

end Agree

/-! ## Programs -/

structure World.Agree (mine : Set BufId) (w v : World) : Prop where
  mgr : w.mgr = v.mgr
  bufs : ∀ i ∈ mine, Pkt.Agree mine (w.bufs i) (v.bufs i)

namespace World.Agree

variable {mine : Set BufId} {w v : World} {i : BufId}

theorem put (h : w.Agree mine v) {m m' : PktManager} (hm : m = m') {b c : PktBuffer}
    (hb : Pkt.Agree mine b c) (i : BufId) : (w.put m i b).Agree mine (v.put m' i c) where
  mgr := hm
  bufs j hj := by
    by_cases hji : j = i
    · rw [hji, put_self, put_self]
      exact hb
    · rw [put_of_ne _ hji, put_of_ne _ hji]
      exact h.bufs j hj

theorem putBuf (h : w.Agree mine v) {b c : PktBuffer} (hb : Pkt.Agree mine b c) (i : BufId) :
    (w.putBuf i b).Agree mine (v.putBuf i c) := h.put h.mgr hb i

/-! ### The cursor -/

theorem node (h : w.Agree mine v) (hi : i ∈ mine) : w.node i = v.node i := by
  unfold World.node
  rw [(h.bufs i hi).curBlk]

theorem node_mem (h : w.Agree mine v) (hi : i ∈ mine) {j k : Nat} (hnode : w.node i = some (j, k)) :
    j ∈ mine ∧ (w.bufs i).curBlk.isNode = true := by
  unfold World.node at hnode
  cases hcur : (w.bufs i).curBlk with
  | «at» l =>
    rw [hcur] at hnode
    cases hnode
    exact ⟨hi, rfl⟩
  | moved j' l =>
    rw [hcur] at hnode
    cases hnode
    exact ⟨(h.bufs i hi).inside _ _ hcur, rfl⟩
  | done => rw [hcur] at hnode; cases hnode
  | dangling => rw [hcur] at hnode; cases hnode

/-- A cursor is at the same block of a packet of the user, or goes wrong in both. -/
theorem cursor (h : w.Agree mine v) (hi : i ∈ mine) :
    (∃ c, w.cursor i = .ok c ∧ v.cursor i = .ok c ∧ c.buf ∈ mine) ∨
      ∃ e, w.cursor i = .error e ∧ v.cursor i = .error e := by
  unfold World.cursor
  rw [← h.node hi]
  cases hnode : w.node i with
  | none => exact .inr ⟨_, rfl, rfl⟩
  | some n =>
    obtain ⟨j, k⟩ := n
    obtain ⟨hj, hat⟩ := h.node_mem hi hnode
    have hoff : (w.bufs i).offset = (v.bufs i).offset := by
      unfold PktBuffer.offset
      rw [(h.bufs i hi).blkOffset hat]
    dsimp only
    rw [(h.bufs j hj).blkList, hoff]
    rcases (v.bufs j).blkList[k]? with _ | _ | blk
    · exact .inr ⟨_, rfl, rfl⟩
    · exact .inr ⟨_, rfl, rfl⟩
    · cases (v.bufs i).offset with
      | ok off => exact .inl ⟨_, rfl, rfl, hj⟩
      | error e => exact .inr ⟨_, rfl, rfl⟩

theorem curBlkRemainSize (h : w.Agree mine v) (hi : i ∈ mine) :
    w.curBlkRemainSize i = v.curBlkRemainSize i := by
  unfold World.curBlkRemainSize
  rw [(h.bufs i hi).curBlk]
  rcases h.cursor hi with ⟨c, hw, hv, -⟩ | ⟨e, hw, hv⟩
  · rw [hw, hv]
  · rw [hw, hv]

theorem nextBlk (h : w.Agree mine v) (hi : i ∈ mine) {j : BufId} (hj : j ∈ mine) (k : Nat) :
    Related (World.Agree mine) (w.nextBlk i j k) (v.nextBlk i j k) := by
  have hb := h.bufs i hi
  unfold World.nextBlk
  rw [(h.bufs j hj).blkList]
  rcases (v.bufs j).blkList[k + 1]? with _ | _ | blk
  · dsimp only
    split
    · refine .ok (h.putBuf ?_ i)
      exact ⟨hb.capacity, hb.blkList, hb.pos, rfl, hb.ref, fun _ => rfl,
        fun _ _ hmoved => Iter.noConfusion hmoved⟩
    · exact .error _
  · exact .error _
  · refine .ok (h.putBuf ?_ i)
    refine ⟨hb.capacity, hb.blkList, hb.pos, rfl, hb.ref, fun _ => rfl, ?_⟩
    intro j' k' hmoved
    dsimp only at hmoved
    split at hmoved
    · cases hmoved
    · cases hmoved
      exact hj

theorem moveForward (h : w.Agree mine v) (hi : i ∈ mine) (size : Nat) :
    Related (World.Agree mine) (w.moveForward i size) (v.moveForward i size) := by
  have hb := h.bufs i hi
  unfold World.moveForward
  rcases h.cursor hi with ⟨c, hw, hv, hc⟩ | ⟨e, hw, hv⟩
  · rw [hw, hv]
    simp only [ok_bind]
    have hmoved : (w.putBuf i { w.bufs i with
          pos := add32 (w.bufs i).pos size, blkOffset := some (c.off + size) }).Agree mine
        (v.putBuf i { v.bufs i with
          pos := add32 (v.bufs i).pos size, blkOffset := some (c.off + size) }) := by
      refine h.putBuf ?_ i
      exact ⟨hb.capacity, hb.blkList, congrArg (add32 · size) hb.pos, hb.curBlk, hb.ref,
        fun _ => rfl, hb.inside⟩
    split
    · exact hmoved.nextBlk hi hc _
    · exact .ok hmoved
  · rw [hw, hv]
    exact .error _

theorem loadCur (h : w.Agree mine v) (hi : i ∈ mine) (n : Nat) : w.loadCur i n = v.loadCur i n := by
  unfold World.loadCur
  rcases h.cursor hi with ⟨c, hw, hv, -⟩ | ⟨e, hw, hv⟩
  · rw [hw, hv]
  · rw [hw, hv]

theorem storeCur (h : w.Agree mine v) (hi : i ∈ mine) (xs : List UInt8) :
    Related (World.Agree mine) (w.storeCur i xs) (v.storeCur i xs) := by
  unfold World.storeCur
  split
  · exact .ok h
  · rcases h.cursor hi with ⟨c, hw, hv, hc⟩ | ⟨e, hw, hv⟩
    · rw [hw, hv]
      simp only [ok_bind]
      refine .bind_same fun payload => .ok (h.putBuf ?_ c.buf)
      have hb := h.bufs c.buf hc
      rw [hb.blkList, hb.capacity]
      exact hb.layout _ _
    · rw [hw, hv]
      exact .error _

theorem listSize (h : w.Agree mine v) (hi : i ∈ mine) : w.listSize i = v.listSize i := by
  unfold World.listSize
  rw [← h.node hi]
  cases hnode : w.node i with
  | none => exact congrArg List.length (h.bufs i hi).blkList
  | some n => exact congrArg List.length (h.bufs n.1 (h.node_mem hi hnode).1).blkList

theorem fuel (h : w.Agree mine v) (hi : i ∈ mine) (size : Nat) : w.fuel i size = v.fuel i size := by
  rw [World.fuel, World.fuel, h.listSize hi]

section Walk

variable {σ : Type} {touch : σ → Nat → World → Except Fault (σ × World)}

/-- **The walk**, when its body sees no more. -/
theorem walk (hi : i ∈ mine) (htouch : ∀ s n w v, World.Agree mine w v →
      Related (SameReply (World.Agree mine)) (touch s n w) (touch s n v))
    (fuel size : Nat) (s : σ) (h : w.Agree mine v) :
    Related (SameReply (World.Agree mine)) (World.walk touch i fuel size s w)
      (World.walk touch i fuel size s v) := by
  induction fuel generalizing size s w v with
  | zero =>
    cases size with
    | zero => exact .ok ⟨rfl, h⟩
    | succ size => exact .error _
  | succ fuel ih =>
    cases size with
    | zero => exact .ok ⟨rfl, h⟩
    | succ size =>
      unfold World.walk
      rw [h.curBlkRemainSize hi]
      refine .bind_same fun remain => ?_
      refine (htouch s _ w v h).bind fun r r' hr => ?_
      obtain ⟨s₁, w₁⟩ := r
      obtain ⟨s₂, v₁⟩ := r'
      obtain ⟨rfl, hr⟩ := hr
      exact (hr.moveForward hi _).bind fun w₂ v₂ h₂ => ih _ _ h₂

end Walk

theorem seek (h : w.Agree mine v) (hi : i ∈ mine) (offset : Nat) :
    Related (SameReply (World.Agree mine)) (w.seek i offset) (v.seek i offset) := by
  have hb := h.bufs i hi
  unfold World.seek
  dsimp only
  rw [hb.pos, hb.capacity]
  split
  · exact .ok ⟨rfl, h⟩
  split
  · exact .ok ⟨rfl, h⟩
  have hwalk : ∀ (moveBytes : Nat) {w v : World}, World.Agree mine w v →
      Related (SameReply (World.Agree mine))
        (World.walk (fun (_ : Unit) _ w => .ok ((), w)) i (w.fuel i moveBytes) moveBytes () w >>=
          fun r => .ok (NetErr.ok, r.2))
        (World.walk (fun (_ : Unit) _ w => .ok ((), w)) i (v.fuel i moveBytes) moveBytes () v >>=
          fun r => .ok (NetErr.ok, r.2)) := by
    intro moveBytes w v h
    rw [h.fuel hi]
    refine (walk hi (fun _ _ _ _ h => ?_) _ _ () h).bind fun q q' hq => .ok ⟨rfl, hq.2⟩
    exact .ok ⟨rfl, h⟩
  split
  · -- back to the front of its own list
    rw [hb.blkList]
    rcases (v.bufs i).blkList with _ | ⟨_ | blk, rest⟩
    · exact .error _
    · exact .error _
    · refine hwalk offset (h.putBuf ?_ i)
      exact ⟨rfl, rfl, rfl, rfl, hb.ref, fun _ => rfl, fun _ _ hmoved => Iter.noConfusion hmoved⟩
  · exact hwalk _ h

theorem fill (h : w.Agree mine v) (hi : i ∈ mine) (val : UInt8) (size : Nat) :
    Related (SameReply (World.Agree mine)) (w.fill i val size) (v.fill i val size) := by
  unfold World.fill
  rw [(h.bufs i hi).totalBlkRemain, h.fuel hi]
  split
  · exact .ok ⟨rfl, h⟩
  split
  · exact .ok ⟨rfl, h⟩
  refine (walk hi (fun _ n _ _ h => ?_) _ _ () h).bind fun q q' hq => .ok ⟨rfl, hq.2⟩
  exact (h.storeCur hi _).bind fun _ _ h' => .ok ⟨rfl, h'⟩

theorem write (h : w.Agree mine v) (hi : i ∈ mine) (src : Option (List UInt8)) (size : Nat) :
    Related (SameReply (World.Agree mine)) (w.write i src size) (v.write i src size) := by
  unfold World.write
  rw [(h.bufs i hi).totalBlkRemain, h.fuel hi]
  split
  · exact .ok ⟨rfl, h⟩
  split
  · exact .ok ⟨rfl, h⟩
  split
  · exact .ok ⟨rfl, h⟩
  refine (walk hi (fun s n _ _ h => ?_) _ _ _ h).bind fun q q' hq => .ok ⟨rfl, hq.2⟩
  exact .bind_same fun bytes => (h.storeCur hi bytes).bind fun _ _ h' => .ok ⟨rfl, h'⟩

theorem read (h : w.Agree mine v) (hi : i ∈ mine) (dest : Option (List UInt8)) (size : Nat) :
    Related (fun r r' => r.1 = r'.1 ∧ r.2.1 = r'.2.1 ∧ World.Agree mine r.2.2 r'.2.2)
      (w.read i dest size) (v.read i dest size) := by
  unfold World.read
  rw [(h.bufs i hi).totalBlkRemain, h.fuel hi]
  split
  · exact .ok ⟨rfl, rfl, h⟩
  split
  · exact .ok ⟨rfl, rfl, h⟩
  split
  · exact .ok ⟨rfl, rfl, h⟩
  refine (walk hi (fun s n w v h => ?_) _ _ _ h).bind fun q q' hq => ?_
  · rw [h.loadCur hi]
    exact .bind_same fun bytes => .bind_same fun dest => .ok ⟨rfl, h⟩
  · obtain ⟨⟨_, _⟩, _⟩ := q
    obtain ⟨⟨_, _⟩, _⟩ := q'
    obtain ⟨heq, hq⟩ := hq
    cases heq
    exact .ok ⟨rfl, rfl, hq⟩

section Copy

variable {src : BufId}

theorem copyLoop (hi : i ∈ mine) (hsrc : src ∈ mine) (fuel size : Nat) (h : w.Agree mine v) :
    Related (World.Agree mine) (World.copyLoop i src fuel size w) (World.copyLoop i src fuel size v) := by
  induction fuel generalizing size w v with
  | zero =>
    cases size with
    | zero => exact .ok h
    | succ size => exact .error _
  | succ fuel ih =>
    cases size with
    | zero => exact .ok h
    | succ size =>
      unfold World.copyLoop
      rw [h.curBlkRemainSize hi, h.curBlkRemainSize hsrc]
      refine .bind_same fun destRemain => .bind_same fun srcRemain => ?_
      dsimp only
      rw [h.loadCur hsrc]
      refine .bind_same fun bytes => (h.storeCur hi bytes).bind fun w₁ v₁ h₁ => ?_
      refine (h₁.moveForward hi _).bind fun w₂ v₂ h₂ => ?_
      exact (h₂.moveForward hsrc _).bind fun w₃ v₃ h₃ => ih _ h₃

theorem copy (h : w.Agree mine v) (hi : i ∈ mine) (hsrc : src ∈ mine) (size : Nat) :
    Related (SameReply (World.Agree mine)) (w.copy i src size) (v.copy i src size) := by
  unfold World.copy
  rw [(h.bufs i hi).totalBlkRemain, (h.bufs src hsrc).totalBlkRemain, h.fuel hi, h.listSize hsrc]
  split
  · exact .ok ⟨rfl, h⟩
  · exact (copyLoop hi hsrc _ _ h).bind fun q q' hq => .ok ⟨rfl, hq⟩

end Copy

/-! ### Calls -/

theorem follow (h : w.Agree mine v) (buf : BufId) {f : Nat → Option (BufId × Nat)}
    (hf : ∀ k j k', f k = some (j, k') → j ∈ mine) : (w.follow buf f).Agree mine (v.follow buf f) where
  mgr := h.mgr
  bufs i hi := by
    refine (h.bufs i hi).cursor (fun it hit => ?_) fun it j k hit => ?_
    · cases it <;> simp_all [Iter.followed, Iter.isNode]
    · cases it with
      | moved j' k' =>
        simp only [Iter.followed] at hit
        split at hit
        · split at hit
          · rename_i hfk
            cases hit
            exact .inr (hf _ _ _ hfk)
          · cases hit
        · exact .inl hit
      | _ => cases hit

theorem carry (h : w.Agree mine v) {w' v' : World} (h' : w'.Agree mine v') {o : Op}
    (ho : o.buf ∈ mine) : (w.carry w' o).Agree mine (v.carry v' o) := by
  unfold World.carry
  rw [(h.bufs o.buf ho).blkList, (h'.bufs o.buf ho).blkList]
  refine h'.follow o.buf fun k j k' hk => ?_
  obtain ⟨_, -, hjk⟩ := Option.map_eq_some_iff.mp hk
  cases hjk
  exact ho

/-- A call that changes one packet, as its packet and the pools tell. -/
theorem layoutCall (h : w.Agree mine v) {o : Op} (ho : o.buf ∈ mine) {α : Type}
    {x y : Except Fault (α × PktManager × PktBuffer)} (f : α → Reply)
    (hxy : Related (Pkt.Agree.SameAnswer mine) x y)
    (hw : w.step o = x >>= fun r => .ok (f r.1, w.put r.2.1 o.buf r.2.2))
    (hv : v.step o = y >>= fun r => .ok (f r.1, v.put r.2.1 o.buf r.2.2)) :
    Related (SameReply (World.Agree mine)) (w.step o >>= fun r => .ok (Answer.reply r.1, w.carry r.2 o))
      (v.step o >>= fun r => .ok (Answer.reply r.1, v.carry r.2 o)) := by
  rw [hw, hv]
  cases hxy with
  | ok hr =>
    exact .ok ⟨congrArg (fun a => Answer.reply (f a)) hr.1, h.carry (h.put hr.2.1 hr.2.2 _) ho⟩
  | error e => exact .error e

end World.Agree

/-- The call is on packets of the user, and gets none but these. -/
def Use.On (mine : Set BufId) : Use → Prop
  | .call (.mergeBuf i buf) => i ∈ mine ∧ buf ∈ mine
  | .call (.copy i src _) => i ∈ mine ∧ src ∈ mine
  | .call o => o.buf ∈ mine
  | .addRef i | .free i | .moveForward i _ | .getCapacity i | .getPos i | .totalBlkRemain i
  | .curBlkRemainSize i => i ∈ mine

/-- **One call** of the user in programs that agree. -/
theorem World.Agree.use {mine : Set BufId} {w v : World} (h : w.Agree mine v) {u : Use}
    (hu : u.On mine) : Related (SameReply (World.Agree mine)) (w.use u) (v.use u) := by
  have hreply : ∀ {x y : Except Fault (NetErr × World)}, Related (SameReply (World.Agree mine)) x y →
      Related (SameReply (World.Agree mine)) (x >>= fun r => .ok (Answer.reply (.err r.1), r.2))
        (y >>= fun r => .ok (Answer.reply (.err r.1), r.2)) := by
    intro x y hxy
    exact hxy.bind fun r r' hr => .ok ⟨congrArg (fun e => Answer.reply (.err e)) hr.1, hr.2⟩
  cases u with
  | call o =>
    cases o with
    | alloc i size allocFront insertFront =>
      exact h.layoutCall hu .bool (h.mgr ▸ (h.bufs i hu).alloc w.mgr size allocFront insertFront) rfl rfl
    | allocHeader i size isCont =>
      exact h.layoutCall hu .err (h.mgr ▸ (h.bufs i hu).allocHeader w.mgr size isCont) rfl rfl
    | removeHeader i size =>
      exact h.layoutCall hu .err (h.mgr ▸ (h.bufs i hu).removeHeader w.mgr size) rfl rfl
    | resize i size =>
      exact h.layoutCall hu .err (h.mgr ▸ (h.bufs i hu).resize w.mgr i size) rfl rfl
    | setContHeader i size =>
      exact h.layoutCall hu .err (h.mgr ▸ (h.bufs i hu).setContHeader w.mgr size) rfl rfl
    | mergeBuf i buf =>
      obtain ⟨hi, hbuf⟩ := hu
      have hb := h.bufs i hi
      have hother := h.bufs buf hbuf
      unfold World.use
      dsimp only
      split
      · exact .error _
      · refine .ok ⟨rfl, ?_⟩
        rw [hb.blkList]
        refine follow (putBuf (h.put (congrArg (·.releasePktbuffer buf) h.mgr) ?_ i) ?_ buf) buf ?_
        · rw [hother.blkList, hb.capacity, hother.capacity]
          exact hb.layout _ _
        · exact hother.spliced hi _
        · intro k j k' hk
          cases hk
          exact hi
    | resetAccess i =>
      have hstep : Related (SameReply (World.Agree mine)) (w.step (.resetAccess i))
          (v.step (.resetAccess i)) :=
        (h.bufs i hu).resetAccess.bind fun b c hb => .ok ⟨rfl, h.putBuf hb i⟩
      exact hstep.bind fun r r' hr => .ok ⟨congrArg Answer.reply hr.1, h.carry hr.2 hu⟩
    | seek i offset => exact hreply (h.seek hu offset)
    | read i dest size =>
      refine (h.read hu dest size).bind fun r r' hr => ?_
      exact .ok ⟨congrArg Answer.reply (congrArg₂ Reply.read hr.1 hr.2.1), hr.2.2⟩
    | write i src size => exact hreply (h.write hu src size)
    | fill i val size => exact hreply (h.fill hu val size)
    | copy i src size => exact hreply (h.copy hu.1 hu.2 size)
  | addRef i => exact .ok ⟨rfl, h.putBuf (h.bufs i hu).addRef i⟩
  | free i =>
    obtain ⟨hm, hb⟩ := (h.bufs i hu).free v.mgr i
    unfold World.use
    dsimp only
    rw [h.mgr]
    exact .ok ⟨rfl, h.carry (h.put hm hb i) hu⟩
  | moveForward i size => exact (h.moveForward hu size).bind fun _ _ h' => .ok ⟨rfl, h'⟩
  | getCapacity i => exact .ok ⟨congrArg Answer.size (h.bufs i hu).capacity, h⟩
  | getPos i => exact .ok ⟨congrArg Answer.size (h.bufs i hu).pos, h⟩
  | totalBlkRemain i => exact .ok ⟨congrArg Answer.size (h.bufs i hu).totalBlkRemain, h⟩
  | curBlkRemainSize i =>
    unfold World.use
    dsimp only
    rw [h.curBlkRemainSize hu]
    exact .bind_same fun n => .ok ⟨rfl, h⟩

end TinyTcp.Pkt
