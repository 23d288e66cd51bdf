/-
TinyTcp.Pkt.StartUp — the constructor of `PktManager` of
`src/net/pktbuf.cc`, on the memory pools as they are.

After the two pools are built, a loop for each takes an object out, makes
it and puts it back, as many times as the configuration says. The pools
have room for a power of two less one, and the loop goes round the queue,
so it makes each object once only if the configured number is of that form
(`startUp_iff`). Otherwise some objects are made twice, and the first
payload is lost, or not at all. Both counts are read under the name
`tcp.pktbuf_blk_cnt`.

`inits` counts how often an object was made. Nothing of the program reads
it. Left out: logging, and an allocation of a payload that throws.
-/
import TinyTcp.Mem.MemBlock
import TinyTcp.Pkt.Buffer
import Mathlib.Data.List.Rotate

namespace TinyTcp.Pkt

open TinyTcp.Lib TinyTcp.Mem TinyTcp.Ring

/-! ## The code -/

/-- `sizeof` an object. -/
structure ObjSize where
  val : Int32
  pos : 1 ≤ val.toInt

theorem ObjSize.pos_nat (size : ObjSize) : 1 ≤ size.val.toInt.toNat := by
  have := size.pos
  omega

/-- `Config::look_up` with a default, then `value()`. -/
def lookUp (config : String → Option UInt32) (name : String) (defaultValue : UInt32) : UInt32 :=
  (config name).getD defaultValue

/-- The blocks at their addresses: the `m_payload` of those that are not raw memory, which is
an index into the arrays that were allocated, with their lengths. -/
structure BlkMem where
  payload : Nat → Option Nat
  heap : List UInt32
  inits : Nat → Nat

/-- `PktBlock::init` -/
def BlkMem.init (blkSize : UInt32) (mem : BlkMem) (blk : Nat) : BlkMem where
  payload := Function.update mem.payload blk (some mem.heap.length)
  heap := mem.heap ++ [blkSize]
  inits := Function.update mem.inits blk (mem.inits blk + 1)

/-- The buffers at their addresses; `none` is raw memory. -/
structure BufMem where
  object : Nat → Option PktBuffer
  inits : Nat → Nat

/-- `new (buf) PktBuffer()` -/
def BufMem.init (mem : BufMem) (buf : Nat) : BufMem where
  object := Function.update mem.object buf (some .new)
  inits := Function.update mem.inits buf (mem.inits buf + 1)

def BlkMem.raw : BlkMem := ⟨fun _ => none, [], fun _ => 0⟩

def BufMem.raw : BufMem := ⟨fun _ => none, fun _ => 0⟩

/-- The rounds of a loop that are left, from the value `i` of its `int` variable. -/
def makeLoop {σ : Type} (make : σ → Nat → σ) (i : Nat) : Nat → MemBlock → σ →
    Except Refusal (MemBlock × σ)
  | 0, m, mem => .ok (m, mem)
  | rounds + 1, m, mem =>
      match m.alloc with
      | (none, _) => .error .assertion
      | (some ptr, m) =>
          let mem := make mem ptr
          let (ok, m) := m.free ptr
          if !ok then .error .assertion
          else if i + 1 = 2 ^ 31 then .error .overflow
          else makeLoop make (i + 1) rounds m mem

structure Pools where
  pktBlk : MemBlock
  pktBuf : MemBlock
  blks : BlkMem
  bufs : BufMem

/-- The constructor of `PktManager`; the last two are where the arrays are allocated. -/
def Pools.create (config : String → Option UInt32) (sizeofPktBlock sizeofPktBuffer : ObjSize)
    (blkPlace bufPlace : Nat) : Except Refusal Pools := do
  let blkSize := lookUp config "tcp.pktbuf_blk_size" 1024
  let blkCnt := lookUp config "tcp.pktbuf_blk_cnt" 1024
  let bufCnt := lookUp config "tcp.pktbuf_blk_cnt" 1024
  let pktBlk ← MemBlock.create blkPlace sizeofPktBlock.val blkCnt.toInt32
  let pktBuf ← MemBlock.create bufPlace sizeofPktBuffer.val bufCnt.toInt32
  let (pktBlk, blks) ← makeLoop (BlkMem.init blkSize) 0 blkCnt.toNat pktBlk .raw
  let (pktBuf, bufs) ← makeLoop BufMem.init 0 bufCnt.toNat pktBuf .raw
  .ok { pktBlk := pktBlk, pktBuf := pktBuf, blks := blks, bufs := bufs }

/-! ## What is wanted -/

/-- The block is made, with a payload of its own. -/
def BlkMem.Owns (mem : BlkMem) (blkSize : UInt32) (blk : Nat) : Prop :=
  ∃ array, mem.payload blk = some array ∧ mem.heap[array]? = some blkSize ∧
    ∀ other, mem.payload other = some array → other = blk

/-- Everything that can be taken out of the pools is made, and was made once. -/
structure Pools.Ready (r : Pools) (blkSize : UInt32) : Prop where
  blkOnce : ∀ blk ∈ r.pktBlk.queue.elements, r.blks.inits blk = 1 ∧ r.blks.Owns blkSize blk
  bufOnce : ∀ buf ∈ r.pktBuf.queue.elements,
    r.bufs.inits buf = 1 ∧ r.bufs.object buf = some .new
  blkLater : ∀ acts s, run Users.next ⟨r.pktBlk, []⟩ acts = some s →
    ∀ blk, s.mem.alloc.1 = some blk → r.blks.Owns blkSize blk
  bufLater : ∀ acts s, run Users.next ⟨r.pktBuf, []⟩ acts = some s →
    ∀ buf, s.mem.alloc.1 = some buf → r.bufs.object buf = some .new

/-! ## The objects -/

@[simp] theorem BlkMem.init_payload_self (blkSize : UInt32) (mem : BlkMem) (blk : Nat) :
    (BlkMem.init blkSize mem blk).payload blk = some mem.heap.length := Function.update_self ..

@[simp] theorem BlkMem.init_payload_of_ne (blkSize : UInt32) (mem : BlkMem) {blk p : Nat}
    (h : p ≠ blk) : (BlkMem.init blkSize mem blk).payload p = mem.payload p :=
  Function.update_of_ne h ..

theorem BlkMem.init_inits (blkSize : UInt32) (mem : BlkMem) (blk : Nat) :
    (BlkMem.init blkSize mem blk).inits = Function.update mem.inits blk (mem.inits blk + 1) := rfl

theorem BufMem.init_inits (mem : BufMem) (buf : Nat) :
    (mem.init buf).inits = Function.update mem.inits buf (mem.inits buf + 1) := rfl

structure BlkMem.Sound (blkSize : UInt32) (mem : BlkMem) : Prop where
  bound : ∀ blk array, mem.payload blk = some array → array < mem.heap.length
  inj : ∀ blk other array, mem.payload blk = some array → mem.payload other = some array →
    other = blk
  sizes : ∀ length ∈ mem.heap, length = blkSize
  made : ∀ blk, mem.inits blk ≠ 0 → ∃ array, mem.payload blk = some array

theorem BlkMem.sound_raw (blkSize : UInt32) : BlkMem.raw.Sound blkSize where
  bound _ _ h := nomatch h
  inj _ _ _ h := nomatch h
  sizes _ h := nomatch h
  made _ h := absurd rfl h

/-- The payload is a new array, so no other block has it. -/
theorem BlkMem.Sound.init {blkSize : UInt32} {mem : BlkMem} (h : mem.Sound blkSize) (blk : Nat) :
    (BlkMem.init blkSize mem blk).Sound blkSize := by
  have hpayload : ∀ p array, (BlkMem.init blkSize mem blk).payload p = some array →
      (p = blk ∧ array = mem.heap.length) ∨ (p ≠ blk ∧ mem.payload p = some array) := by
    intro p array hp
    by_cases heq : p = blk
    · rw [heq, init_payload_self] at hp
      exact .inl ⟨heq, (Option.some.inj hp).symm⟩
    · rw [init_payload_of_ne _ _ heq] at hp
      exact .inr ⟨heq, hp⟩
  refine { bound := ?_, inj := ?_, sizes := ?_, made := ?_ }
  · intro p array hp
    show array < (mem.heap ++ [blkSize]).length
    rw [List.length_append, List.length_singleton]
    rcases hpayload p array hp with ⟨-, rfl⟩ | ⟨-, hp⟩
    · exact Nat.lt_succ_self _
    · exact Nat.lt_succ_of_lt (h.bound p array hp)
  · intro p other array hp hother
    rcases hpayload p array hp with ⟨rfl, rfl⟩ | ⟨-, hp⟩
    · rcases hpayload other _ hother with ⟨rfl, -⟩ | ⟨-, hother⟩
      · rfl
      · exact absurd (h.bound other _ hother) (Nat.lt_irrefl _)
    · rcases hpayload other array hother with ⟨-, rfl⟩ | ⟨-, hother⟩
      · exact absurd (h.bound p _ hp) (Nat.lt_irrefl _)
      · exact h.inj p other array hp hother
  · intro length hmem
    rcases List.mem_append.mp hmem with hmem | hmem
    · exact h.sizes length hmem
    · exact List.mem_singleton.mp hmem
  · intro p hp
    by_cases heq : p = blk
    · exact ⟨_, by rw [heq, init_payload_self]⟩
    · rw [init_inits, Function.update_of_ne heq] at hp
      rw [init_payload_of_ne _ _ heq]
      exact h.made p hp

/-- What has been made owns its payload. -/
theorem BlkMem.Sound.owns {blkSize : UInt32} {mem : BlkMem} (h : mem.Sound blkSize) {blk : Nat}
    (hmade : mem.inits blk ≠ 0) : mem.Owns blkSize blk := by
  obtain ⟨array, hpayload⟩ := h.made blk hmade
  refine ⟨array, hpayload, ?_, fun other hother => h.inj blk other array hpayload hother⟩
  have hlt := h.bound blk array hpayload
  rw [List.getElem?_eq_getElem hlt, h.sizes _ (List.getElem_mem hlt)]

/-- What has been made is a new buffer. -/
def BufMem.Sound (mem : BufMem) : Prop := ∀ buf, mem.inits buf ≠ 0 → mem.object buf = some .new

theorem BufMem.sound_raw : BufMem.raw.Sound := fun _ h => absurd rfl h

theorem BufMem.Sound.init {mem : BufMem} (h : mem.Sound) (buf : Nat) : (mem.init buf).Sound := by
  intro p hp
  by_cases heq : p = buf
  · rw [heq]
    exact Function.update_self ..
  · rw [init_inits, Function.update_of_ne heq] at hp
    exact (Function.update_of_ne heq ..).trans (h p hp)

/-- What one object's making keeps, the loop keeps. -/
theorem foldl_keeps {σ : Type} {make : σ → Nat → σ} {p : σ → Prop}
    (hmake : ∀ mem ptr, p mem → p (make mem ptr)) (ptrs : List Nat) {mem : σ} (h : p mem) :
    p (ptrs.foldl make mem) := by
  induction ptrs generalizing mem with
  | nil => exact h
  | cons ptr ptrs ih => exact ih (hmake mem ptr h)

/-- How often an object was made. -/
theorem inits_foldl {σ : Type} {make : σ → Nat → σ} {inits : σ → Nat → Nat}
    (hmake : ∀ mem p, inits (make mem p) = Function.update (inits mem) p (inits mem p + 1))
    (ptrs : List Nat) (mem : σ) (p : Nat) :
    inits (ptrs.foldl make mem) p = inits mem p + ptrs.count p := by
  induction ptrs generalizing mem with
  | nil => rfl
  | cons q ptrs ih =>
    rw [List.foldl_cons, ih, hmake]
    by_cases hq : q = p
    · subst hq
      rw [Function.update_self, List.count_cons_self]
      omega
    · rw [Function.update_of_ne (Ne.symm hq), List.count_cons_of_ne hq]

/-- Each object is made once in a loop over all of them. -/
theorem inits_foldl_once {σ : Type} {make : σ → Nat → σ} {inits : σ → Nat → Nat}
    (hmake : ∀ mem p, inits (make mem p) = Function.update (inits mem) p (inits mem p + 1))
    {mem : σ} (hraw : ∀ p, inits mem p = 0) {ptrs : List Nat} (hnodup : ptrs.Nodup) {p : Nat}
    (hp : p ∈ ptrs) : inits (ptrs.foldl make mem) p = 1 := by
  rw [inits_foldl hmake, hraw, List.count_eq_one_of_mem hnodup hp]

theorem blks_once (blkSize : UInt32) {blks : List Nat} (hnodup : blks.Nodup) {blk : Nat}
    (hblk : blk ∈ blks) : (blks.foldl (BlkMem.init blkSize) .raw).inits blk = 1 ∧
      (blks.foldl (BlkMem.init blkSize) .raw).Owns blkSize blk := by
  have honce : (blks.foldl (BlkMem.init blkSize) .raw).inits blk = 1 :=
    inits_foldl_once (BlkMem.init_inits blkSize) (fun _ => rfl) hnodup hblk
  have hsound : (blks.foldl (BlkMem.init blkSize) .raw).Sound blkSize :=
    foldl_keeps (fun _ ptr h => h.init ptr) blks (BlkMem.sound_raw blkSize)
  exact ⟨honce, hsound.owns (by rw [honce]; decide)⟩

theorem bufs_once {bufs : List Nat} (hnodup : bufs.Nodup) {buf : Nat} (hbuf : buf ∈ bufs) :
    (bufs.foldl BufMem.init .raw).inits buf = 1 ∧
      (bufs.foldl BufMem.init .raw).object buf = some .new := by
  have honce : (bufs.foldl BufMem.init .raw).inits buf = 1 :=
    inits_foldl_once BufMem.init_inits (fun _ => rfl) hnodup hbuf
  have hsound : (bufs.foldl BufMem.init .raw).Sound :=
    foldl_keeps (fun _ ptr h => h.init ptr) bufs BufMem.sound_raw
  exact ⟨honce, hsound buf (by rw [honce]; decide)⟩

/-! ## The loop -/

section Loop

variable {σ : Type} {make : σ → Nat → σ} {m : MemBlock} {mem : σ}

/-- The loop goes round the queue. -/
theorem makeLoop_eq {f : Fifo Nat} (h : Represents m.queue f) (hne : f.items ≠ [])
    {i rounds : Nat} (hint : i + rounds < 2 ^ 31) (make : σ → Nat → σ) (mem : σ) :
    ∃ m', makeLoop make i rounds m mem = .ok (m', (visited rounds f.items).foldl make mem) ∧
      Represents m'.queue { f with items := f.items.rotate rounds } := by
  induction rounds generalizing f m mem i with
  | zero => exact ⟨m, rfl, by rw [List.rotate_zero]; exact h⟩
  | succ rounds ih =>
    obtain ⟨cap, items⟩ := f
    cases items with
    | nil => exact absurd rfl hne
    | cons ptr rest =>
      obtain ⟨hptr, hring⟩ := MemBlock.alloc_cons h rfl
      have hbounded : rest.length < cap := h.bounded
      obtain ⟨hok, hback⟩ := hring.push ptr
      rw [Fifo.push_of_room hbounded] at hok hback
      have hback' : Represents (m.alloc.2.free ptr).2.queue ⟨cap, rest ++ [ptr]⟩ := hback
      have hne' : rest ++ [ptr] ≠ [] := by simp
      have hint' : i + 1 + rounds < 2 ^ 31 := by omega
      obtain ⟨m', hloop, hend⟩ := ih hback' hne' hint' (make mem ptr)
      refine ⟨m', ?_, ?_⟩
      · rw [makeLoop, show m.alloc = (some ptr, m.alloc.2) from Prod.ext hptr rfl]
        simp only [show (m.alloc.2.free ptr).1 = true from hok, Bool.not_true, Bool.false_eq_true,
          if_false, if_neg (show ¬ i + 1 = 2 ^ 31 by omega)]
        exact hloop
      · rw [List.rotate_cons_succ]
        exact hend

/-- The `int` of a loop that ends has not overflowed. -/
theorem makeLoop_int {r : MemBlock × σ} {i rounds : Nat} (hi : i < 2 ^ 31)
    (h : makeLoop make i rounds m mem = .ok r) : i + rounds < 2 ^ 31 := by
  induction rounds generalizing m mem i with
  | zero => exact hi
  | succ rounds ih =>
    rw [makeLoop] at h
    split at h
    · cases h
    · dsimp only at h
      split at h
      · cases h
      · split at h
        · cases h
        · have := ih (by omega) h
          omega

/-- One pool, when the configured number is a power of two less one. -/
theorem makeLoop_whole {size : ObjSize} {n : UInt32} {k : Nat} (hn : 1 ≤ n.toNat)
    (hpow : n.toNat + 1 = 2 ^ k) (hfit : size.val.toInt * (n.toNat + 1) < 2 ^ 31) (place : Nat)
    (make : σ → Nat → σ) (mem : σ) :
    ∃ m m', MemBlock.create place size.val n.toInt32 = .ok m ∧
      makeLoop make 0 n.toNat m mem =
        .ok (m', (blocksAt place size.val.toInt.toNat n.toNat).foldl make mem) ∧
      Represents m'.queue ⟨n.toNat, blocksAt place size.val.toInt.toNat n.toNat⟩ := by
  have hsmall : ((n.toNat + 1 : Nat) : Int) < 2 ^ 31 := by
    have := Int.mul_le_mul_of_nonneg_right size.pos (Int.natCast_nonneg (n.toNat + 1))
    push_cast at this ⊢
    omega
  have hcap : n.toInt32.toInt = n.toNat := toInt_toInt32 (by omega)
  obtain ⟨m, hm, -, -, -, hring⟩ := MemBlock.create_eq place size.pos (by omega)
    (poolSize_succ hcap hn hpow) (by push_cast; exact hfit)
  rw [Nat.add_sub_cancel] at hring
  have hne : blocksAt place size.val.toInt.toNat n.toNat ≠ [] := by
    rw [← List.length_pos_iff, length_blocksAt]
    exact hn
  obtain ⟨m', hloop, hend⟩ := makeLoop_eq hring hne
    (show 0 + n.toNat < 2 ^ 31 by omega) make mem
  -- one whole turn
  have hround := visited_length (blocksAt place size.val.toInt.toNat n.toNat)
  have hturn := List.rotate_length (blocksAt place size.val.toInt.toNat n.toNat)
  rw [length_blocksAt] at hround hturn
  refine ⟨m, m', hm, ?_, ?_⟩
  · rw [hloop, hround]
  · simpa only [hturn] using hend

/-- One pool, when everything in it has been made once. -/
theorem count_of_once {inits : σ → Nat → Nat} {place : Nat} {size : ObjSize} {n : UInt32}
    {m m' : MemBlock} {mem' : σ}
    (hmake : ∀ mem p, inits (make mem p) = Function.update (inits mem) p (inits mem p + 1))
    (hraw : ∀ p, inits mem p = 0) (hn : 1 ≤ n.toNat)
    (hm : MemBlock.create place size.val n.toInt32 = .ok m)
    (hloop : makeLoop make 0 n.toNat m mem = .ok (m', mem'))
    (honce : ∀ p ∈ m'.queue.elements, inits mem' p = 1) :
    (∃ k, n.toNat + 1 = 2 ^ k) ∧ size.val.toInt * (n.toNat + 1) < 2 ^ 31 := by
  have hint := makeLoop_int (by decide) hloop
  have hcap : n.toInt32.toInt = n.toNat := toInt_toInt32 (by omega)
  have htotal : PoolSize n.toInt32 (queueSize n.toInt32.toUInt32).toNat :=
    poolSize_queueSize (by omega)
  have hfit := MemBlock.fits_of_create size.pos (by omega) htotal hm
  generalize (queueSize n.toInt32.toUInt32).toNat = total at htotal hfit
  obtain ⟨m₁, hm₁, -, -, -, hring⟩ := MemBlock.create_eq place size.pos (by omega) htotal hfit
  cases hm.symm.trans hm₁
  obtain ⟨k, hk⟩ := htotal.1.1
  have htwo : 2 ≤ total := by
    have := (le_max_right ..).trans htotal.1.2
    omega
  have hne : blocksAt place size.val.toInt.toNat (total - 1) ≠ [] := by
    rw [← List.length_pos_iff, length_blocksAt]
    omega
  obtain ⟨m₂, hloop₂, hend⟩ := makeLoop_eq hring hne
    (show 0 + n.toNat < 2 ^ 31 from hint) make mem
  cases hloop.symm.trans hloop₂
  have hcount := (count_visited_iff hne (nodup_blocksAt size.pos_nat place _) n.toNat).mp
    fun p hp => by
      rw [hend.elements] at honce
      have hone := honce p (List.mem_rotate.mpr hp)
      rw [inits_foldl hmake, hraw, Nat.zero_add] at hone
      exact hone
  rw [length_blocksAt] at hcount
  have htotal_eq : n.toNat + 1 = total := by omega
  refine ⟨⟨k, by rw [htotal_eq, hk]⟩, ?_⟩
  rw [← htotal_eq] at hfit
  exact_mod_cast hfit

end Loop

/-! ## The constructor -/

section Constructor

variable {config : String → Option UInt32} {sizeofPktBlock sizeofPktBuffer : ObjSize}
  {blkPlace bufPlace : Nat}

/-- The number of objects of either kind. -/
def pktbufCnt (config : String → Option UInt32) : Nat :=
  (lookUp config "tcp.pktbuf_blk_cnt" 1024).toNat

/-- The number fits the pools, and their arrays are not too long. -/
def Fits (config : String → Option UInt32) (sizeofPktBlock sizeofPktBuffer : ObjSize) : Prop :=
  (∃ k, pktbufCnt config + 1 = 2 ^ k) ∧
    sizeofPktBlock.val.toInt * (pktbufCnt config + 1) < 2 ^ 31 ∧
    sizeofPktBuffer.val.toInt * (pktbufCnt config + 1) < 2 ^ 31

theorem fits_of_ready (hn : 1 ≤ pktbufCnt config) {r : Pools} {blkSize : UInt32}
    (hr : Pools.create config sizeofPktBlock sizeofPktBuffer blkPlace bufPlace = .ok r)
    (hready : r.Ready blkSize) : Fits config sizeofPktBlock sizeofPktBuffer := by
  unfold Pools.create at hr
  obtain ⟨blk, hblk, hr⟩ := bind_eq_ok.mp hr
  obtain ⟨buf, hbuf, hr⟩ := bind_eq_ok.mp hr
  obtain ⟨⟨blk', blks⟩, hblks, hr⟩ := bind_eq_ok.mp hr
  obtain ⟨⟨buf', bufs⟩, hbufs, hr⟩ := bind_eq_ok.mp hr
  cases hr
  obtain ⟨hpow, hblkfit⟩ := count_of_once (BlkMem.init_inits _) (fun _ => rfl) hn hblk hblks
    fun p hp => (hready.blkOnce p hp).1
  obtain ⟨-, hbuffit⟩ := count_of_once BufMem.init_inits (fun _ => rfl) hn hbuf hbufs
    fun p hp => (hready.bufOnce p hp).1
  exact ⟨hpow, hblkfit, hbuffit⟩

theorem ready_of_fits (hn : 1 ≤ pktbufCnt config)
    (hfits : Fits config sizeofPktBlock sizeofPktBuffer) (blkPlace bufPlace : Nat) :
    ∃ r, Pools.create config sizeofPktBlock sizeofPktBuffer blkPlace bufPlace = .ok r ∧
      r.Ready (lookUp config "tcp.pktbuf_blk_size" 1024) := by
  obtain ⟨⟨k, hpow⟩, hblkfit, hbuffit⟩ := hfits
  have hblkdup := nodup_blocksAt sizeofPktBlock.pos_nat blkPlace (pktbufCnt config)
  have hbufdup := nodup_blocksAt sizeofPktBuffer.pos_nat bufPlace (pktbufCnt config)
  obtain ⟨blk, blk', hblk, hblks, hblkring⟩ := makeLoop_whole hn hpow hblkfit blkPlace
    (BlkMem.init (lookUp config "tcp.pktbuf_blk_size" 1024)) .raw
  obtain ⟨buf, buf', hbuf, hbufs, hbufring⟩ :=
    makeLoop_whole hn hpow hbuffit bufPlace BufMem.init .raw
  unfold Pools.create
  refine ⟨_, bind_eq_ok.mpr ⟨_, hblk, bind_eq_ok.mpr ⟨_, hbuf, bind_eq_ok.mpr
    ⟨_, hblks, bind_eq_ok.mpr ⟨_, hbufs, rfl⟩⟩⟩⟩, ?_⟩
  refine { blkOnce := ?_, bufOnce := ?_, blkLater := ?_, bufLater := ?_ }
  · rw [hblkring.elements]
    exact fun p hp => blks_once _ hblkdup hp
  · rw [hbufring.elements]
    exact fun p hp => bufs_once hbufdup hp
  · intro acts s hrun p hptr
    exact (blks_once _ hblkdup (mem_of_alloc_after hblkring hrun hptr)).2
  · intro acts s hrun p hptr
    exact (bufs_once hbufdup (mem_of_alloc_after hbufring hrun hptr)).2

/-- **Start-up.** The constructor makes everything in the pools, and each object once, exactly
if the configured number is a power of two less one and the arrays are not too long. -/
theorem startUp_iff (hn : 1 ≤ pktbufCnt config) :
    (∃ r, Pools.create config sizeofPktBlock sizeofPktBuffer blkPlace bufPlace = .ok r ∧
      r.Ready (lookUp config "tcp.pktbuf_blk_size" 1024)) ↔
    Fits config sizeofPktBlock sizeofPktBuffer := by
  constructor
  · rintro ⟨r, hr, hready⟩
    exact fits_of_ready hn hr hready
  · intro hfits
    exact ready_of_fits hn hfits blkPlace bufPlace

end Constructor

/-- A pool for seven objects of either kind. -/
theorem startUp_seven :
    ∃ r, Pools.create (fun name => if name = "tcp.pktbuf_blk_cnt" then some 7 else none)
        ⟨24, by decide⟩ ⟨64, by decide⟩ 4096 65536 = .ok r ∧
      r.Ready 1024 :=
  (startUp_iff (by decide)).mpr ⟨⟨3, rfl⟩, by decide, by decide⟩

/-- With nothing configured there are 1024 rounds for 1023 objects. -/
theorem not_ready_default :
    ¬ ∃ r, Pools.create (fun _ => none) ⟨24, by decide⟩ ⟨64, by decide⟩ 4096 65536 = .ok r ∧
      r.Ready 1024 := by
  rintro ⟨r, hr, hready⟩
  obtain ⟨⟨k, hk⟩, -⟩ := fits_of_ready (by decide) hr hready
  have hk : 1025 = 2 ^ k := hk
  have hlow : 10 < k := (Nat.pow_lt_pow_iff_right (show 1 < 2 by decide)).mp (by omega)
  have hhigh : k < 11 := (Nat.pow_lt_pow_iff_right (show 1 < 2 by decide)).mp (by omega)
  omega

end TinyTcp.Pkt
