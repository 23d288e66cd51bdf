/-
TinyTcp.Pkt.Carried — calls on packets whose `m_cur_blk` is at a block of
another packet.

`std::list::splice` takes the nodes along and leaves iterators to them
valid, so after `a.merge_buf(b)` the `m_cur_blk` of `b` is at a block of
`a`, and what is then done through `b` goes there: to the blocks that `a`
has by then, as long as the node is in its list. `World.step` sees the
packets that a call names, so it cannot say what happens. `World.use` can:

* an access through `m_cur_blk` goes to the list that its node is in
  (`cursor`), whoever has that list now, also when it is the one that
  `copy` reads from or writes to;
* `++m_cur_blk` behind the last node of another list is not the `end()` of
  its own list, and what comes next is a read through the end of a list;
* a call that moves nodes moves the iterators of all other packets with
  them (`follow`), and an iterator whose node is erased is dangling.

While `m_cur_blk` is a node of its own list, or none, the two are the same
(`use_call_of_own`).
-/
import TinyTcp.Lib.Related
import TinyTcp.Pkt.World

namespace TinyTcp.Pkt

open TinyTcp.Lib

/-! ## Iterators into other lists -/

/-- After the nodes of the packet at `buf` went where `f` says; `none` is an erased one. -/
def Iter.followed (buf : BufId) (f : Nat → Option (BufId × Nat)) : Iter → Iter
  | .moved j k =>
      if j = buf then
        match f k with
        | some (j', k') => .moved j' k'
        | none => .dangling
      else .moved j k
  | it => it

/-- A cursor at a block: the packet that has the block, its place in that packet's list, the
block, and `m_blk_offset`. -/
structure Cursor where
  buf : BufId
  index : Nat
  blk : PktBlock
  off : Nat

namespace World

variable (w : World)

/-- The node that `m_cur_blk` is at. -/
def node (i : BufId) : Option (BufId × Nat) :=
  match (w.bufs i).curBlk with
  | .at k => some (i, k)
  | .moved j k => some (j, k)
  | _ => none

/-- `*m_cur_blk` and `m_blk_offset`. -/
def cursor (i : BufId) : Except Fault Cursor :=
  match w.node i with
  | none => .error .badIterator
  | some (j, k) =>
      match (w.bufs j).blkList[k]? with
      | none => .error .badIterator
      | some none => .error .nullDeref
      | some (some blk) => do
          let off ← (w.bufs i).offset
          .ok ⟨j, k, blk, off⟩

/-! ## The member functions that use the cursor -/

def curBlkRemainSize (i : BufId) : Except Fault Nat :=
  if (w.bufs i).curBlk = .done then .ok 0
  else do
    let c ← w.cursor i
    .ok (sub32 (c.blk.data + c.blk.size) c.off)

/-- `++m_cur_blk` at the node `k` of the list of `j`, with the new `m_blk_offset`. -/
def nextBlk (i j : BufId) (k : Nat) : Except Fault World :=
  match (w.bufs j).blkList[k + 1]? with
  | some (some blk) =>
      .ok (w.putBuf i { w.bufs i with
        curBlk := if j = i then .at (k + 1) else .moved j (k + 1), blkOffset := some blk.data })
  | some none => .error .nullDeref
  | none =>
      if j = i then .ok (w.putBuf i { w.bufs i with curBlk := .done, blkOffset := none })
      else .error .badIterator

def moveForward (i : BufId) (size : Nat) : Except Fault World := do
  let c ← w.cursor i
  let w := w.putBuf i
    { w.bufs i with pos := add32 (w.bufs i).pos size, blkOffset := some (c.off + size) }
  if c.off + size ≥ c.blk.data + c.blk.size then w.nextBlk i c.buf c.index else .ok w

/-- The bytes at `m_blk_offset`. -/
def loadCur (i : BufId) (n : Nat) : Except Fault (List UInt8) :=
  if n = 0 then .ok []
  else do
    let c ← w.cursor i
    PktBuffer.load c.blk.payload c.off n

/-- `xs` written at `m_blk_offset`. -/
def storeCur (i : BufId) (xs : List UInt8) : Except Fault World :=
  if xs.length = 0 then .ok w
  else do
    let c ← w.cursor i
    let payload ← PktBuffer.store c.blk.payload c.off xs
    .ok (w.putBuf c.buf { w.bufs c.buf with
      blkList := (w.bufs c.buf).blkList.set c.index (some { c.blk with payload := payload }) })

/-- The length of the list that the cursor walks along. -/
def listSize (i : BufId) : Nat :=
  match w.node i with
  | some (j, _) => (w.bufs j).blkList.length
  | none => (w.bufs i).blkList.length

/-- Rounds that are enough for a walk over `size` bytes. -/
def fuel (i : BufId) (size : Nat) : Nat := size + w.listSize i + 1

/-- The loop of `seek`, `fill`, `write` and `read`, as in `PktBuffer.walk`. -/
def walk {σ : Type} (touch : σ → Nat → World → Except Fault (σ × World)) (i : BufId) :
    Nat → Nat → σ → World → Except Fault (σ × World)
  | _, 0, s, w => .ok (s, w)
  | 0, _ + 1, _, _ => .error .endless
  | fuel + 1, size + 1, s, w => do
      let remain ← w.curBlkRemainSize i
      let c := min (size + 1) remain
      let (s, w) ← touch s c w
      let w ← w.moveForward i c
      walk touch i fuel (size + 1 - c) s w

def seek (i : BufId) (offset : Nat) : Except Fault (NetErr × World) :=
  let b := w.bufs i
  if b.pos = offset then .ok (.ok, w)
  else if offset > b.capacity then .ok (.size, w)
  else do
    let (w, moveBytes) ←
      if offset < b.pos then
        match b.blkList with
        | [] => .error .badIterator
        | none :: _ => .error .nullDeref
        | some blk :: _ =>
            .ok (w.putBuf i { b with curBlk := .at 0, blkOffset := some blk.data, pos := 0 }, offset)
      else .ok (w, sub32 offset b.pos)
    let (_, w) ← walk (fun (_ : Unit) _ w => .ok ((), w)) i (w.fuel i moveBytes) moveBytes () w
    .ok (.ok, w)

/-- `dest` is this buffer, `src` the other one. -/
def copyLoop (dest src : BufId) : Nat → Nat → World → Except Fault World
  | _, 0, w => .ok w
  | 0, _ + 1, _ => .error .endless
  | fuel + 1, size + 1, w => do
      let destRemain ← w.curBlkRemainSize dest
      let srcRemain ← w.curBlkRemainSize src
      let copySize := min (size + 1) (min destRemain srcRemain)
      let bytes ← w.loadCur src copySize
      let w ← w.storeCur dest bytes
      let w ← w.moveForward dest copySize
      let w ← w.moveForward src copySize
      copyLoop dest src fuel (size + 1 - copySize) w

def copy (dest src : BufId) (size : Nat) : Except Fault (NetErr × World) :=
  if (w.bufs dest).totalBlkRemain < size ∨ (w.bufs src).totalBlkRemain < size then .ok (.size, w)
  else do
    let w ← copyLoop dest src (w.fuel dest size + w.listSize src) size w
    .ok (.ok, w)

def fill (i : BufId) (v : UInt8) (size : Nat) : Except Fault (NetErr × World) :=
  if size = 0 then .ok (.param, w)
  else if (w.bufs i).totalBlkRemain < size then .ok (.size, w)
  else do
    let (_, w) ← walk (fun (_ : Unit) c w => do .ok ((), ← w.storeCur i (List.replicate c v))) i
      (w.fuel i size) size () w
    .ok (.ok, w)

def write (i : BufId) (src : Option (List UInt8)) (size : Nat) : Except Fault (NetErr × World) :=
  match src with
  | none => .ok (.param, w)
  | some src =>
      if size = 0 then .ok (.param, w)
      else if (w.bufs i).totalBlkRemain < size then .ok (.size, w)
      else do
        let (_, w) ← walk
          (fun (src : List UInt8) c w => do
            let bytes ← PktBuffer.load src 0 c
            let w ← w.storeCur i bytes
            .ok (src.drop c, w))
          i (w.fuel i size) size src w
        .ok (.ok, w)

def read (i : BufId) (dest : Option (List UInt8)) (size : Nat) :
    Except Fault (NetErr × Option (List UInt8) × World) :=
  match dest with
  | none => .ok (.param, none, w)
  | some dest =>
      if size = 0 then .ok (.param, some dest, w)
      else if (w.bufs i).totalBlkRemain < size then .ok (.size, some dest, w)
      else do
        let ((_, dest), w) ← walk
          (fun (s : Nat × List UInt8) c w => do
            let bytes ← w.loadCur i c
            let dest ← PktBuffer.store s.2 s.1 bytes
            .ok ((s.1 + c, dest), w))
          i (w.fuel i size) size (0, dest) w
        .ok (.ok, some dest, w)

/-- The iterators of all packets after the nodes of `buf` went where `f` says. -/
def follow (buf : BufId) (f : Nat → Option (BufId × Nat)) : World :=
  { w with bufs := fun i => { w.bufs i with curBlk := (w.bufs i).curBlk.followed buf f } }

end World

/-! ## Calls -/

/-- A call on a packet, or a look at one of its members. -/
inductive Use where
  | call (o : Op)
  | addRef (i : BufId)
  | free (i : BufId)
  | moveForward (i : BufId) (size : Nat)
  | getCapacity (i : BufId)
  | getPos (i : BufId)
  | totalBlkRemain (i : BufId)
  | curBlkRemainSize (i : BufId)
  deriving DecidableEq

inductive Answer where
  | reply (r : Reply)
  | size (n : Nat)
  deriving DecidableEq

/-- The packet whose list a call changes. -/
def Op.buf : Op → BufId
  | .alloc i .. | .allocHeader i .. | .removeHeader i _ | .resize i _ | .mergeBuf i _
  | .setContHeader i _ | .resetAccess i | .seek i _ | .read i .. | .write i .. | .fill i ..
  | .copy i .. => i

/-- Where the node `k` of a list of `len` nodes is after the call, when there are `len'`. What
is behind `len'` in the other cases went with `free`, or with a shrinking `resize`. -/
def Op.nodeAfter (len len' k : Nat) : Op → Option Nat
  | .alloc _ _ _ true | .allocHeader .. => some (k + (len' - len))
  | .removeHeader .. => if k < len - len' then none else some (k - (len - len'))
  | .setContHeader .. =>
      if k = 0 then some 0 else if k ≤ len - len' then none else some (k - (len - len'))
  | _ => if k < len' then some k else none

namespace World

/-- The iterators of all packets after the call, which led from `w` to `w'`. -/
def carry (w w' : World) (o : Op) : World :=
  w'.follow o.buf fun k =>
    (o.nodeAfter (w.bufs o.buf).blkList.length (w'.bufs o.buf).blkList.length k).map (Prod.mk o.buf)

/-- One call, with what its caller gets. -/
def use (w : World) : Use → Except Fault (Answer × World)
  | .call (.seek i offset) => do
      let (e, w) ← w.seek i offset
      .ok (.reply (.err e), w)
  | .call (.read i dest size) => do
      let (e, dest, w) ← w.read i dest size
      .ok (.reply (.read e dest), w)
  | .call (.write i src size) => do
      let (e, w) ← w.write i src size
      .ok (.reply (.err e), w)
  | .call (.fill i v size) => do
      let (e, w) ← w.fill i v size
      .ok (.reply (.err e), w)
  | .call (.copy i src size) => do
      let (e, w) ← w.copy i src size
      .ok (.reply (.err e), w)
  | .call (.mergeBuf i buf) =>
      -- `splice` must not be given the list itself
      if i = buf then .error .badIterator
      else do
        let (r, w') ← w.step (.mergeBuf i buf)
        .ok (.reply r, w'.follow buf fun k => some (i, (w.bufs i).blkList.length + k))
  | .call o => do
      let (r, w') ← w.step o
      .ok (.reply r, w.carry w' o)
  | .addRef i => .ok (.reply .unit, w.putBuf i (w.bufs i).addRef)
  | .free i =>
      let (m, b) := PktBuffer.free w.mgr i (w.bufs i)
      .ok (.reply (.bool true), w.carry (w.put m i b) (.resize i 0))
  | .moveForward i size => do
      let w ← w.moveForward i size
      .ok (.reply .unit, w)
  | .getCapacity i => .ok (.size (w.bufs i).capacity, w)
  | .getPos i => .ok (.size (w.bufs i).pos, w)
  | .totalBlkRemain i => .ok (.size (w.bufs i).totalBlkRemain, w)
  | .curBlkRemainSize i => do
      let n ← w.curBlkRemainSize i
      .ok (.size n, w)

end World

/-! ## Own lists -/

/-- `m_cur_blk` is at a node of its own list, or at none. -/
def PktBuffer.Own (b : PktBuffer) : Prop := ∀ j k, b.curBlk ≠ .moved j k

namespace World

variable {w v : World} {i : BufId} {b : PktBuffer}

@[simp] theorem putBuf_putBuf (w : World) (i : BufId) (b c : PktBuffer) :
    (w.putBuf i b).putBuf i c = w.putBuf i c := by
  simp [putBuf, put]

theorem putBuf_comm (w : World) {i j : BufId} (h : i ≠ j) (b c : PktBuffer) :
    (w.putBuf i b).putBuf j c = (w.putBuf j c).putBuf i b := by
  simp [putBuf, put, Function.update_comm h]

theorem node_of_own (h : (w.bufs i).Own) {j k : Nat} (hnode : w.node i = some (j, k)) :
    j = i ∧ (w.bufs i).curBlk = .at k := by
  unfold node at hnode
  cases hcur : (w.bufs i).curBlk with
  | «at» l =>
    rw [hcur] at hnode
    cases hnode
    exact ⟨rfl, rfl⟩
  | moved j' l => exact absurd hcur (h j' l)
  | done => rw [hcur] at hnode; cases hnode
  | dangling => rw [hcur] at hnode; cases hnode

/-- The cursor is what the packet alone tells. -/
theorem cursor_of_own (h : (w.bufs i).Own) : (∃ k blk off, (w.bufs i).curBlk = .at k ∧
      (w.bufs i).derefCur = .ok blk ∧ (w.bufs i).offset = .ok off ∧
      w.cursor i = .ok ⟨i, k, blk, off⟩) ∨
    ∃ e, w.cursor i = .error e ∧ ∀ {α : Type} (f : PktBlock → Nat → Except Fault α),
      ((w.bufs i).derefCur >>= fun blk => (w.bufs i).offset >>= f blk) = .error e := by
  unfold cursor
  cases hnode : w.node i with
  | none =>
    refine .inr ⟨_, rfl, fun f => ?_⟩
    unfold node at hnode
    have hderef : (w.bufs i).derefCur = .error .badIterator := by
      unfold PktBuffer.derefCur
      cases hcur : (w.bufs i).curBlk with
      | «at» k => rw [hcur] at hnode; cases hnode
      | moved j k => rw [hcur] at hnode; cases hnode
      | done => rfl
      | dangling => rfl
    rw [hderef]
    rfl
  | some n =>
    obtain ⟨j, k⟩ := n
    obtain ⟨rfl, hat⟩ := node_of_own h hnode
    unfold PktBuffer.derefCur
    rw [hat]
    dsimp only
    cases (w.bufs j).blkList[k]? with
    | none => exact .inr ⟨_, rfl, fun f => rfl⟩
    | some ptr =>
      cases ptr with
      | none => exact .inr ⟨_, rfl, fun f => rfl⟩
      | some blk =>
        cases hoff : (w.bufs j).offset with
        | error e => exact .inr ⟨e, rfl, fun f => rfl⟩
        | ok off => exact .inl ⟨k, blk, off, rfl, rfl, rfl, rfl⟩

/-- `v` is `w` but for the packet `b` at `i`, whose cursor is its own. -/
def Alone (w : World) (i : BufId) (v : World) (b : PktBuffer) : Prop :=
  v = w.putBuf i b ∧ b.Own

theorem alone_self (h : (w.bufs i).Own) : Alone w i w (w.bufs i) := ⟨(putBuf_bufs w i).symm, h⟩

namespace Alone

theorem cursor (h : Alone w i v b) : (∃ k blk off, b.curBlk = .at k ∧ b.derefCur = .ok blk ∧
      b.offset = .ok off ∧ v.cursor i = .ok ⟨i, k, blk, off⟩) ∨
    ∃ e, v.cursor i = .error e ∧ ∀ {α : Type} (f : PktBlock → Nat → Except Fault α),
      (b.derefCur >>= fun blk => b.offset >>= f blk) = .error e := by
  obtain ⟨rfl, hown⟩ := h
  simpa only [putBuf_self] using
    cursor_of_own (w := w.putBuf i b) (i := i) (by rw [putBuf_self]; exact hown)

theorem bufs_eq (h : Alone w i v b) : v.bufs i = b := by
  rw [h.1, putBuf_self]

/-- Another packet in its place. -/
theorem put (h : Alone w i v b) {c : PktBuffer} (hc : c.Own) : Alone w i (v.putBuf i c) c :=
  ⟨by rw [h.1, putBuf_putBuf], hc⟩

theorem curBlkRemainSize (h : Alone w i v b) : v.curBlkRemainSize i = b.curBlkRemainSize := by
  unfold World.curBlkRemainSize PktBuffer.curBlkRemainSize
  rw [h.bufs_eq]
  split
  · rfl
  · rcases h.cursor with ⟨k, blk, off, -, hderef, hoff, hcursor⟩ | ⟨e, hcursor, hread⟩
    · rw [hcursor, hderef, hoff]
      rfl
    · rw [hcursor, hread]
      rfl

theorem moveForward (h : Alone w i v b) (size : Nat) :
    Related (Alone w i) (v.moveForward i size) (b.moveForward size) := by
  unfold World.moveForward PktBuffer.moveForward
  rcases h.cursor with ⟨k, blk, off, hat, hderef, hoff, hcursor⟩ | ⟨e, hcursor, hread⟩
  · rw [hcursor, hderef, hoff, h.bufs_eq]
    simp only [ok_bind]
    split
    · unfold nextBlk PktBuffer.nextBlk
      simp only [hat, putBuf_self, putBuf_putBuf, if_true]
      cases b.blkList[k + 1]? with
      | none => exact .ok (h.put fun j l hl => by cases hl)
      | some ptr =>
        cases ptr with
        | none => exact .error _
        | some blk' => exact .ok (h.put fun j l hl => by cases hl)
    · exact .ok (h.put h.2)
  · rw [hcursor, hread]
    exact .error _

theorem loadCur (h : Alone w i v b) (n : Nat) : v.loadCur i n = b.loadCur n := by
  unfold World.loadCur PktBuffer.loadCur
  split
  · rfl
  · rcases h.cursor with ⟨k, blk, off, -, hderef, hoff, hcursor⟩ | ⟨e, hcursor, hread⟩
    · rw [hcursor, hderef, hoff]
      rfl
    · rw [hcursor, hread]
      rfl

theorem storeCur (h : Alone w i v b) (xs : List UInt8) :
    Related (Alone w i) (v.storeCur i xs) (b.storeCur xs) := by
  unfold World.storeCur PktBuffer.storeCur
  split
  · exact .ok h
  · rcases h.cursor with ⟨k, blk, off, hat, hderef, hoff, hcursor⟩ | ⟨e, hcursor, hread⟩
    · rw [hcursor, hderef, hoff]
      simp only [ok_bind, hat, h.bufs_eq]
      exact .bind_same fun payload => .ok (h.put fun j l hl => by cases hl)
    · rw [hcursor, hread]
      exact .error _

theorem listSize (h : Alone w i v b) : v.listSize i = b.blkList.length := by
  unfold World.listSize
  cases hnode : v.node i with
  | none => rw [← h.bufs_eq]
  | some n =>
    obtain ⟨rfl, -⟩ := node_of_own (by rw [h.bufs_eq]; exact h.2) hnode
    rw [← h.bufs_eq]

theorem fuel (h : Alone w i v b) (size : Nat) : v.fuel i size = b.fuel size := by
  rw [World.fuel, PktBuffer.fuel, h.listSize]

section Walk

variable {σ : Type} {touch : σ → Nat → World → Except Fault (σ × World)}
  {touch' : σ → Nat → PktBuffer → Except Fault (σ × PktBuffer)}

theorem walk (htouch : ∀ s n v b, Alone w i v b →
      Related (SameReply (Alone w i)) (touch s n v) (touch' s n b))
    (fuel size : Nat) (s : σ) (h : Alone w i v b) :
    Related (SameReply (Alone w i)) (World.walk touch i fuel size s v)
      (PktBuffer.walk touch' fuel size s b) := by
  induction fuel generalizing size s v b with
  | zero =>
    cases size with
    | zero => exact .ok ⟨rfl, h⟩
    | succ size => exact .error _
  | succ fuel ih =>
    cases size with
    | zero => exact .ok ⟨rfl, h⟩
    | succ size =>
      unfold World.walk PktBuffer.walk
      rw [h.curBlkRemainSize]
      refine .bind_same fun remain => ?_
      refine (htouch s _ v b h).bind fun r r' hr => ?_
      obtain ⟨s₁, v₁⟩ := r
      obtain ⟨s₂, b₁⟩ := r'
      obtain ⟨rfl, hr⟩ := hr
      exact (hr.moveForward _).bind fun v₂ b₂ h₂ => ih _ _ h₂

end Walk

theorem seek (h : Alone w i v b) (offset : Nat) :
    Related (SameReply (Alone w i)) (v.seek i offset) (b.seek offset) := by
  unfold World.seek PktBuffer.seek
  rw [h.bufs_eq]
  dsimp only
  split
  · exact .ok ⟨rfl, h⟩
  split
  · exact .ok ⟨rfl, h⟩
  have hwalk : ∀ (moveBytes : Nat) {v : World} {b : PktBuffer}, Alone w i v b →
      Related (SameReply (Alone w i))
        (World.walk (fun (_ : Unit) _ w => .ok ((), w)) i (v.fuel i moveBytes) moveBytes () v >>=
          fun r => .ok (NetErr.ok, r.2))
        (PktBuffer.walk (fun (_ : Unit) _ b => .ok ((), b)) (b.fuel moveBytes) moveBytes () b >>=
          fun r => .ok (NetErr.ok, r.2)) := by
    intro moveBytes v b h
    rw [h.fuel]
    exact (walk (fun _ _ _ _ h => .ok ⟨rfl, h⟩) _ _ () h).bind fun q q' hq => .ok ⟨rfl, hq.2⟩
  split
  · -- back to the front of its own list
    rcases b.blkList with _ | ⟨_ | blk, rest⟩
    · exact .error _
    · exact .error _
    · exact hwalk offset (h.put fun j k hk => Iter.noConfusion hk)
  · exact hwalk _ h

theorem fill (h : Alone w i v b) (val : UInt8) (size : Nat) :
    Related (SameReply (Alone w i)) (v.fill i val size) (b.fill val size) := by
  unfold World.fill PktBuffer.fill
  rw [h.bufs_eq, h.fuel]
  split
  · exact .ok ⟨rfl, h⟩
  split
  · exact .ok ⟨rfl, h⟩
  refine (walk (fun _ n _ _ h => ?_) _ _ () h).bind fun q q' hq => .ok ⟨rfl, hq.2⟩
  exact (h.storeCur _).bind fun _ _ h' => .ok ⟨rfl, h'⟩

theorem write (h : Alone w i v b) (src : Option (List UInt8)) (size : Nat) :
    Related (SameReply (Alone w i)) (v.write i src size) (b.write src size) := by
  unfold World.write PktBuffer.write
  rw [h.bufs_eq, h.fuel]
  split
  · exact .ok ⟨rfl, h⟩
  split
  · exact .ok ⟨rfl, h⟩
  split
  · exact .ok ⟨rfl, h⟩
  refine (walk (fun s n _ _ h => ?_) _ _ _ h).bind fun q q' hq => .ok ⟨rfl, hq.2⟩
  exact .bind_same fun bytes => (h.storeCur bytes).bind fun _ _ h' => .ok ⟨rfl, h'⟩

theorem read (h : Alone w i v b) (dest : Option (List UInt8)) (size : Nat) :
    Related (fun r r' => r.1 = r'.1 ∧ r.2.1 = r'.2.1 ∧ Alone w i r.2.2 r'.2.2)
      (v.read i dest size) (b.read dest size) := by
  unfold World.read PktBuffer.read
  rw [h.bufs_eq, h.fuel]
  split
  · exact .ok ⟨rfl, rfl, h⟩
  split
  · exact .ok ⟨rfl, rfl, h⟩
  split
  · exact .ok ⟨rfl, rfl, h⟩
  refine (walk (fun s n v b h => ?_) _ _ _ h).bind fun q q' hq => ?_
  · rw [h.loadCur]
    exact .bind_same fun bytes => .bind_same fun dest => .ok ⟨rfl, h⟩
  · obtain ⟨⟨_, _⟩, _⟩ := q
    obtain ⟨⟨_, _⟩, _⟩ := q'
    obtain ⟨heq, hq⟩ := hq
    cases heq
    exact .ok ⟨rfl, rfl, hq⟩

/-- The same for two packets. -/
def Both (w : World) (i j : BufId) (v : World) (r : PktBuffer × PktBuffer) : Prop :=
  Alone (w.putBuf j r.2) i v r.1 ∧ Alone (w.putBuf i r.1) j v r.2

section Copy

variable {j : BufId} {c : PktBuffer}

theorem both_self (hi : (w.bufs i).Own) (hj : (w.bufs j).Own) :
    Both w i j w (w.bufs i, w.bufs j) := by
  constructor
  · rw [putBuf_bufs]
    exact alone_self hi
  · rw [putBuf_bufs]
    exact alone_self hj

theorem Both.fst (hij : i ≠ j) (h : Both w i j v (b, c)) {v' : World} {b' : PktBuffer}
    (h' : Alone (w.putBuf j c) i v' b') : Both w i j v' (b', c) := by
  refine ⟨h', ?_, h.2.2⟩
  rw [h'.1, putBuf_comm w hij.symm]

theorem Both.snd (hij : i ≠ j) (h : Both w i j v (b, c)) {v' : World} {c' : PktBuffer}
    (h' : Alone (w.putBuf i b) j v' c') : Both w i j v' (b, c') := by
  refine ⟨⟨?_, h.1.2⟩, h'⟩
  rw [h'.1, putBuf_comm w hij]

theorem copyLoop (hij : i ≠ j) (fuel size : Nat) (h : Both w i j v (b, c)) :
    Related (Both w i j) (World.copyLoop i j fuel size v) (PktBuffer.copyLoop fuel size b c) := by
  induction fuel generalizing size v b c with
  | zero =>
    cases size with
    | zero => exact .ok h
    | succ size => exact .error _
  | succ fuel ih =>
    cases size with
    | zero => exact .ok h
    | succ size =>
      unfold World.copyLoop PktBuffer.copyLoop
      rw [h.1.curBlkRemainSize, h.2.curBlkRemainSize]
      refine .bind_same fun destRemain => .bind_same fun srcRemain => ?_
      dsimp only
      rw [h.2.loadCur]
      refine .bind_same fun bytes => (h.1.storeCur bytes).bind fun v₁ b₁ h₁ => ?_
      have hboth₁ := Both.fst hij h h₁
      refine (hboth₁.1.moveForward _).bind fun v₂ b₂ h₂ => ?_
      have hboth₂ := Both.fst hij hboth₁ h₂
      exact (hboth₂.2.moveForward _).bind fun v₃ c₃ h₃ => ih _ (Both.snd hij hboth₂ h₃)

theorem copy (hij : i ≠ j) (h : Both w i j v (b, c)) (size : Nat) :
    Related (fun r r' => r.1 = r'.1 ∧ Both w i j r.2 r'.2) (v.copy i j size) (b.copy c size) := by
  unfold World.copy PktBuffer.copy
  rw [h.1.bufs_eq, h.2.bufs_eq, h.1.fuel, h.2.listSize]
  split
  · exact .ok ⟨rfl, h⟩
  · exact (copyLoop hij _ _ h).bind fun q q' hq => .ok ⟨rfl, hq⟩

end Copy

end Alone

end World

/-- The call moves a cursor along the list of its own packet; `copy` moves two, of two packets. -/
def Op.OnOwn (w : World) : Op → Prop
  | .seek i _ | .read i .. | .write i .. | .fill i .. => (w.bufs i).Own
  | .copy i src _ => i ≠ src ∧ (w.bufs i).Own ∧ (w.bufs src).Own
  | _ => False

/-- **Own lists.** A call through a cursor that is at a node of its own list, or at none, is what
the packets that it names make of it. -/
theorem World.use_call_of_own {w : World} {o : Op} (h : o.OnOwn w) :
    w.use (.call o) = (w.step o).map fun r => (.reply r.1, r.2) := by
  have hcall : ∀ {α β : Type} {R : α → β → Prop} {x : Except Fault α} {y : Except Fault β}
      (f : α → Answer × World) (g : β → Reply × World), Related R x y →
      (∀ a b, R a b → f a = (.reply (g b).1, (g b).2)) →
      (x >>= fun r => .ok (f r)) = (y >>= fun r => .ok (g r)).map fun r => (.reply r.1, r.2) := by
    intro α β R x y f g hxy h
    cases hxy with
    | ok hr => exact congrArg Except.ok (h _ _ hr)
    | error e => rfl
  have herr : ∀ {i : BufId} {x : Except Fault (NetErr × World)} {y : Except Fault (NetErr × PktBuffer)},
      Related (SameReply (Alone w i)) x y →
      (x >>= fun r => .ok (Answer.reply (.err r.1), r.2)) =
        (y >>= fun r => .ok (Reply.err r.1, w.putBuf i r.2)).map fun r => (.reply r.1, r.2) := by
    intro i x y hxy
    refine hcall _ _ hxy fun a b hr => ?_
    rw [hr.1, hr.2.1]
  cases o with
  | seek i offset => exact herr ((alone_self h).seek offset)
  | fill i val size => exact herr ((alone_self h).fill val size)
  | write i src size => exact herr ((alone_self h).write src size)
  | read i dest size =>
    refine hcall (fun r => (.reply (.read r.1 r.2.1), r.2.2))
      (fun r => (.read r.1 r.2.1, w.putBuf i r.2.2)) ((alone_self h).read dest size) fun a b hr => ?_
    rw [hr.1, hr.2.1, hr.2.2.1]
  | copy i src size =>
    refine hcall (fun r => (.reply (.err r.1), r.2))
      (fun r => (.err r.1, (w.putBuf i r.2.1).putBuf src r.2.2))
      (Alone.copy h.1 (Alone.both_self h.2.1 h.2.2) size) fun a b hr => ?_
    rw [hr.1, hr.2.2.1]
  | _ => exact h.elim

end TinyTcp.Pkt
