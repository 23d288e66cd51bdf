/-
TinyTcp.Pkt.Windows — when a call leaves the data window of every block
inside its payload, whatever `tcp.pktbuf_blk_size` is by then.

`PktBlock::init` allocates `P` bytes for each payload, once. The calls do
not know `P`: they place windows by the value the configuration variable
has at the time, which is `m.blkSize`. `Windows P m b` says that the
windows of a buffer lie in payloads of `P` bytes. The blocks of the free
list have such payloads, too, but no windows: `m_data` and `m_size` are
set when a block is taken off it.

`AllocFits`, `HeaderFits`, `ResizeFits` and `ContFits` are conditions on
the state before a call. Each `_windows` lemma takes a call that returned
and shows that it has kept `Windows` if its condition is met, and that it
has left a window beyond its payload if not (`KeepsIff`).
-/
import TinyTcp.Pkt.Fixed
import TinyTcp.Pkt.Keeps

namespace TinyTcp.Pkt

open TinyTcp.Lib

namespace PktBlock

/-- The data window lies in the memory that `init` allocated for the block. -/
def Inside (blk : PktBlock) : Prop := blk.data + blk.size ≤ blk.payload.length

instance (blk : PktBlock) : Decidable blk.Inside := inferInstanceAs (Decidable (_ ≤ _))

/-- The same, for a payload of `P` bytes. -/
structure Within (P : Nat) (blk : PktBlock) : Prop where
  payload : blk.payload.length = P
  fits : blk.data + blk.size ≤ P

variable {P : Nat} {blk blk' : PktBlock}

theorem Within.inside (h : blk.Within P) : blk.Inside := by
  rw [Inside, h.payload]
  exact h.fits

theorem not_inside (hpay : blk.payload.length = P) (hlt : P < blk.data + blk.size) :
    ¬ blk.Inside := by
  rw [Inside, hpay]
  omega

/-- A window with the same end. -/
theorem Within.sameEnd (h : blk.Within P) (hpay : blk'.payload = blk.payload)
    (hend : blk'.data + blk'.size = blk.data + blk.size) : blk'.Within P := by
  refine ⟨?_, ?_⟩
  · rw [hpay]
    exact h.payload
  · rw [hend]
    exact h.fits

end PktBlock

namespace PktBuffer

/-! ## The bytes of a list with null pointers -/

/-- The sum of the block sizes. -/
def total (ptrs : List BlkPtr) : Nat := sizes ptrs.reduceOption

@[simp] theorem total_nil : total [] = 0 := rfl

@[simp] theorem total_none (ptrs : List BlkPtr) : total (none :: ptrs) = total ptrs := rfl

@[simp] theorem total_some (blk : PktBlock) (ptrs : List BlkPtr) :
    total (some blk :: ptrs) = blk.size + total ptrs := by
  simp [total, List.reduceOption_cons_of_some]

@[simp] theorem total_append (l l' : List BlkPtr) : total (l ++ l') = total l + total l' := by
  simp [total, List.reduceOption_append]

@[simp] theorem total_map_some (blks : List PktBlock) : total (blks.map some) = sizes blks := by
  rw [total, reduceOption_map_some]

theorem total_perm {l l' : List BlkPtr} (h : l.Perm l') : total l = total l' :=
  ((h.filterMap id).map PktBlock.size).sum_nat

/-! ## The windows of the free list and of a buffer -/

/-- All payloads have `P` bytes, the windows of the buffer lie in them, and
`m_capacity` is the sum of the sizes, as a `uint32_t`. -/
structure Windows (P : Nat) (m : PktManager) (b : PktBuffer) : Prop where
  free : ∀ blk, some blk ∈ m.pktBlk.items → blk.payload.length = P
  room : m.pktBlk.items.length ≤ m.pktBlk.cap
  held : ∀ blk, some blk ∈ b.blkList → blk.Within P
  capacity : b.capacity = total b.blkList % 2 ^ 32

/-- After a call: the windows are kept if it was fit, and only then. -/
structure KeepsIff (P : Nat) (m m' : PktManager) (b' : PktBuffer) (fit : Prop) : Prop where
  blkSize : m'.blkSize = m.blkSize
  kept : fit → Windows P m' b'
  escapes : ¬ fit → ∃ blk, some blk ∈ b'.blkList ∧ ¬ blk.Inside

variable {P n : Nat} {m m' : PktManager} {b b' : PktBuffer}

theorem KeepsIff.of_windows {fit : Prop} (hfit : fit) (hB : m'.blkSize = m.blkSize)
    (h : Windows P m' b') : KeepsIff P m m' b' fit :=
  ⟨hB, fun _ => h, fun hnot => absurd hfit hnot⟩

theorem KeepsIff.congr {fit fit' : Prop} (h : KeepsIff P m m' b' fit) (hiff : fit ↔ fit') :
    KeepsIff P m m' b' fit' :=
  ⟨h.blkSize, fun hfit => h.kept (hiff.mpr hfit), fun hnot => h.escapes fun hfit => hnot (hiff.mp hfit)⟩

/-! ## alloc -/

/-- `alloc` fails or adds no blocks, or the windows of the new blocks end
inside payloads of `P` bytes. -/
def AllocFits (P : Nat) (m : PktManager) (n : Nat) (allocFront : Bool) : Prop :=
  m.freeBytes < n ∨ n = 0 ∨ m.blkSize ≤ P ∨ (allocFront = false ∧ n ≤ P)

instance (P : Nat) (m : PktManager) (n : Nat) (allocFront : Bool) :
    Decidable (AllocFits P m n allocFront) :=
  inferInstanceAs (Decidable (_ ∨ _))

/-- What the loop of `alloc` has taken off the free list `items`. -/
structure Taken (B : Nat) (allocFront : Bool) (n : Nat) (items : List BlkPtr) (ok : Bool)
    (blks : List PktBlock) (rest : List BlkPtr) : Prop where
  length : blks.length + rest.length = items.length
  rest : ∀ ptr ∈ rest, ptr ∈ items
  cut : ∀ blk ∈ blks, (∃ old, some old ∈ items ∧ blk.payload = old.payload) ∧
    blk.size ≤ B ∧ blk.size ≤ n ∧ blk.data = if allocFront then B - blk.size else 0
  sizes : ok = true → sizes blks = n
  enough : ok = true ↔ n ≤ items.length * B
  none : n = 0 → blks = []
  first : n ≠ 0 → items ≠ [] → ∃ blk ∈ blks, blk.size = min n B

theorem takeBlocks_taken {B : Nat} {f ok : Bool} {items rest : List BlkPtr} {blks : List PktBlock}
    (h : takeBlocks B f items n = .ok (ok, blks, rest)) : Taken B f n items ok blks rest := by
  induction items generalizing n ok blks rest with
  | nil =>
    cases n with
    | zero =>
      cases h
      exact ⟨rfl, by simp, by simp, fun _ => rfl, by simp, fun _ => rfl, fun hne => absurd rfl hne⟩
    | succ n =>
      cases h
      exact ⟨rfl, by simp, by simp, by simp, by simp, by simp, fun _ hne => absurd rfl hne⟩
  | cons ptr items ih =>
    cases n with
    | zero =>
      cases h
      exact ⟨by simp, by simp, by simp, fun _ => rfl, by simp, fun _ => rfl,
        fun hne => absurd rfl hne⟩
    | succ n =>
      cases ptr with
      | none => cases h
      | some blk =>
        simp only [takeBlocks, bind_eq_ok] at h
        obtain ⟨⟨ok₁, blks₁, rest₁⟩, htake, heq⟩ := h
        cases heq
        have hrest := ih htake
        refine ⟨?_, ?_, ?_, ?_, ?_, by simp, fun _ _ => ⟨_, List.mem_cons_self, rfl⟩⟩
        · have hlen := hrest.length
          simp only [List.length_cons]
          omega
        · intro ptr hptr
          exact List.mem_cons_of_mem _ (hrest.rest ptr hptr)
        · intro blk' hblk'
          rcases List.mem_cons.mp hblk' with rfl | hblk'
          · exact ⟨⟨blk, List.mem_cons_self, rfl⟩, Nat.min_le_right _ _, Nat.min_le_left _ _, rfl⟩
          · obtain ⟨⟨old, hold, hpay⟩, hB, hn, hdata⟩ := hrest.cut blk' hblk'
            exact ⟨⟨old, List.mem_cons_of_mem _ hold, hpay⟩, hB, by omega, hdata⟩
        · intro hok
          have hsum := hrest.sizes hok
          rw [sizes_cons, hsum]
          exact Nat.add_sub_cancel' (Nat.min_le_left _ _)
        · rw [hrest.enough, List.length_cons, Nat.succ_mul]
          omega

theorem resetAccess_list (h : b.resetAccess = .ok b') : b'.blkList = b.blkList := by
  unfold resetAccess at h
  split at h
  · cases h
    rfl
  · cases h
  · cases h
    rfl

/-- The list operations of `alloc` add the new blocks, in one order or another. -/
theorem inserted {blks : List PktBlock} {f ins : Bool}
    (h : b' =
      if ins then
        if f then (blks.map some).foldl pushFront b
        else (blks.reverse.map some).foldl pushFront b
      else
        if f then (blks.reverse.map some).foldl pushBack b
        else (blks.map some).foldl pushBack b) :
    b'.blkList.Perm (blks.map some ++ b.blkList) ∧ b'.capacity = b.capacity := by
  have hback : (blks.reverse.map some).Perm (blks.map some) := (List.reverse_perm blks).map some
  subst h
  cases ins with
  | true =>
    cases f with
    | true =>
      obtain ⟨cur, hfold⟩ := foldl_pushFront_list (blks.map some) b
      simp only [if_true, hfold]
      exact ⟨(List.reverse_perm _).append_right _, trivial⟩
    | false =>
      obtain ⟨cur, hfold⟩ := foldl_pushFront_list (blks.reverse.map some) b
      simp only [if_true, Bool.false_eq_true, if_false, hfold]
      exact ⟨((List.reverse_perm _).trans hback).append_right _, trivial⟩
  | false =>
    cases f with
    | true =>
      simp only [if_true, Bool.false_eq_true, if_false, foldl_pushBack_list]
      exact ⟨(hback.append_left _).trans List.perm_append_comm, trivial⟩
    | false =>
      simp only [Bool.false_eq_true, if_false, foldl_pushBack_list]
      exact ⟨List.perm_append_comm, trivial⟩

/-- `alloc` either adds the blocks it has taken to the list, or puts them
back to the free list. -/
theorem alloc_taken {f ins ok : Bool} (hroom : m.pktBlk.items.length ≤ m.pktBlk.cap)
    (h : alloc m b n f ins = .ok (ok, m', b')) :
    ∃ blks rest, Taken m.blkSize f n m.pktBlk.items ok blks rest ∧
      m'.blkSize = m.blkSize ∧ m'.pktBlk.cap = m.pktBlk.cap ∧
      if ok then m'.pktBlk.items = rest ∧ b'.blkList.Perm (blks.map some ++ b.blkList) ∧
        b'.capacity = add32 b.capacity n
      else m'.pktBlk.items = rest ++ blks.map some ∧ b'.blkList = b.blkList ∧
        b'.capacity = sub32 (add32 b.capacity n) n := by
  simp only [alloc, bind_eq_ok] at h
  obtain ⟨⟨got, blks, rest⟩, htake, h⟩ := h
  have htaken := takeBlocks_taken htake
  cases got with
  | false =>
    simp only [Bool.not_false, if_true, Except.ok.injEq, Prod.mk.injEq] at h
    obtain ⟨rfl, rfl, rfl⟩ := h
    have hpush : rest.length + (blks.map some).length ≤ m.pktBlk.cap := by
      have hlen := htaken.length
      rw [List.length_map]
      omega
    refine ⟨blks, rest, htaken, rfl, Fifo.cap_pushAll _ _, ?_, rfl, rfl⟩
    simp only [PktManager.releaseAll]
    rw [Fifo.pushAll_of_room hpush]
  | true =>
    simp only [Bool.not_true, Bool.false_eq_true, if_false, bind_eq_ok] at h
    obtain ⟨b₂, hreset, heq⟩ := h
    cases heq
    have hlist := resetAccess_list hreset
    have hcap := congrArg Prod.fst (resetAccess_fixed hreset)
    obtain ⟨hperm, hsame⟩ :=
      inserted (b := { b with capacity := add32 b.capacity n, ref := 1 }) (f := f) rfl
    refine ⟨blks, rest, htaken, rfl, rfl, rfl, ?_, ?_⟩
    · rw [hlist]
      exact hperm
    · exact hcap.trans hsame

section Alloc

variable {f ins ok : Bool} {blks : List PktBlock} {rest : List BlkPtr}

theorem Taken.payload (h : Windows P m b) (htaken : Taken m.blkSize f n m.pktBlk.items ok blks rest) :
    ∀ blk ∈ blks, blk.payload.length = P := by
  intro blk hblk
  obtain ⟨⟨old, hold, hpay⟩, -⟩ := htaken.cut blk hblk
  rw [hpay]
  exact h.free old hold

theorem Taken.within (h : Windows P m b) (htaken : Taken m.blkSize f n m.pktBlk.items true blks rest)
    (hfit : AllocFits P m n f) : ∀ blk ∈ blks, blk.Within P := by
  intro blk hblk
  obtain ⟨-, hB, hn, hdata⟩ := htaken.cut blk hblk
  refine ⟨htaken.payload h blk hblk, ?_⟩
  rw [hdata]
  rcases hfit with hshort | hzero | hle | ⟨rfl, hle⟩
  · exact absurd (htaken.enough.mp rfl) (Nat.not_le.mpr hshort)
  · rw [htaken.none hzero] at hblk
    cases hblk
  · split
    · omega
    · omega
  · simp only [Bool.false_eq_true, if_false]
    omega

/-- The first block that is taken gets the largest window. -/
theorem Taken.escapes (h : Windows P m b) (htaken : Taken m.blkSize f n m.pktBlk.items ok blks rest)
    (hnot : ¬ AllocFits P m n f) : ok = true ∧ ∃ blk ∈ blks, ¬ blk.Inside := by
  simp only [AllocFits, not_or, not_and] at hnot
  obtain ⟨hshort, hzero, hB, hback⟩ := hnot
  have hne : m.pktBlk.items ≠ [] := by
    intro hnil
    rw [PktManager.freeBytes, hnil, List.length_nil, Nat.zero_mul] at hshort
    omega
  obtain ⟨blk, hblk, hsize⟩ := htaken.first hzero hne
  obtain ⟨-, -, -, hdata⟩ := htaken.cut blk hblk
  refine ⟨htaken.enough.mpr (Nat.le_of_not_lt hshort), blk, hblk,
    PktBlock.not_inside (htaken.payload h blk hblk) ?_⟩
  cases f with
  | true =>
    simp only [if_true] at hdata
    omega
  | false =>
    have hlt := hback rfl
    simp only [Bool.false_eq_true, if_false] at hdata
    omega

theorem alloc_windows (h : Windows P m b) (hcall : alloc m b n f ins = .ok (ok, m', b')) :
    KeepsIff P m m' b' (AllocFits P m n f) := by
  obtain ⟨blks, rest, htaken, hB, hcap, hend⟩ := alloc_taken h.room hcall
  have hlen := htaken.length
  have hroom := h.room
  cases ok with
  | false =>
    simp only [Bool.false_eq_true, if_false] at hend
    obtain ⟨hitems, hlist, hcapacity⟩ := hend
    refine ⟨hB, fun hfit => ⟨?_, ?_, ?_, ?_⟩, fun hnot => ?_⟩
    · intro blk hblk
      rw [hitems] at hblk
      rcases List.mem_append.mp hblk with hblk | hblk
      · exact h.free blk (htaken.rest _ hblk)
      · exact htaken.payload h blk (by simpa using hblk)
    · rw [hitems, hcap, List.length_append, List.length_map]
      omega
    · rw [hlist]
      exact h.held
    · rw [hcapacity, hlist, h.capacity]
      exact wrapSub_wrapAdd (Nat.mod_lt _ (by decide)) n
    · obtain ⟨hok, -⟩ := htaken.escapes h hnot
      cases hok
  | true =>
    simp only [if_true] at hend
    obtain ⟨hitems, hperm, hcapacity⟩ := hend
    refine ⟨hB, fun hfit => ⟨?_, ?_, ?_, ?_⟩, fun hnot => ?_⟩
    · intro blk hblk
      rw [hitems] at hblk
      exact h.free blk (htaken.rest _ hblk)
    · rw [hitems, hcap]
      omega
    · intro blk hblk
      rcases List.mem_append.mp (hperm.mem_iff.mp hblk) with hblk | hblk
      · exact htaken.within h hfit blk (by simpa using hblk)
      · exact h.held blk hblk
    · rw [hcapacity, total_perm hperm, total_append, total_map_some, htaken.sizes rfl, h.capacity,
        add32, wrapAdd, Nat.mod_add_mod, Nat.add_comm]
    · obtain ⟨-, blk, hblk, hout⟩ := htaken.escapes h hnot
      exact ⟨blk, hperm.mem_iff.mpr (List.mem_append_left _ (List.mem_map_of_mem hblk)), hout⟩

/-- What was in the list is in it after `alloc`. -/
theorem alloc_held {ptr : BlkPtr} (hroom : m.pktBlk.items.length ≤ m.pktBlk.cap)
    (h : alloc m b n f ins = .ok (ok, m', b')) (hptr : ptr ∈ b.blkList) : ptr ∈ b'.blkList := by
  obtain ⟨blks, rest, -, -, -, hend⟩ := alloc_taken hroom h
  cases ok with
  | false =>
    simp only [Bool.false_eq_true, if_false] at hend
    rw [hend.2.1]
    exact hptr
  | true =>
    simp only [if_true] at hend
    exact hend.2.1.mem_iff.mpr (List.mem_append_right _ hptr)

end Alloc

/-! ## alloc_header -/

/-- One block of the list gets another window and `n` more bytes. -/
theorem Windows.replace (h : Windows P m b) (pre post : List BlkPtr) {blk blk' : PktBlock}
    (hlist : b.blkList = pre ++ some blk :: post) (hlist' : b'.blkList = pre ++ some blk' :: post)
    (hblk' : blk'.Within P) (hsize : blk'.size = add32 blk.size n)
    (hcap : b'.capacity = add32 b.capacity n) : Windows P m b' := by
  refine ⟨h.free, h.room, ?_, ?_⟩
  · intro x hx
    rw [hlist'] at hx
    rcases List.mem_append.mp hx with hx | hx
    · exact h.held x (by rw [hlist]; exact List.mem_append_left _ hx)
    · rcases List.mem_cons.mp hx with heq | hx
      · cases heq
        exact hblk'
      · exact h.held x (by rw [hlist]; exact List.mem_append_right _ (List.mem_cons_of_mem _ hx))
  · rw [hcap, hlist', h.capacity, hlist]
    simp only [total_append, total_some, hsize, add32, wrapAdd]
    omega

/-- `alloc_header` adds no block, or the `m.blkSize` bytes at whose end the
window of the new block ends are inside its payload. -/
def HeaderFits (P : Nat) (m : PktManager) (b : PktBuffer) (n : Nat) (isCont : Bool) : Prop :=
  b.blkList = [] ∨ n ≤ b.frontSlack ∨ m.blkSize ≤ P ∨
    if isCont then m.pktBlk.items = [] ∨ m.blkSize < n else m.freeBytes < n - b.frontSlack

instance (P : Nat) (m : PktManager) (b : PktBuffer) (n : Nat) (isCont : Bool) :
    Decidable (HeaderFits P m b n isCont) :=
  inferInstanceAs (Decidable (_ ∨ _ ∨ _ ∨ if isCont = true then _ else _))

/-- The free list after a block has been taken off it. -/
theorem getPktblock_windows {ptr : BlkPtr} (h : Windows P m b)
    (hget : m.getPktblock = .ok (ptr, m')) :
    m'.blkSize = m.blkSize ∧ Windows P m' b ∧ (ptr = none ↔ m.pktBlk.items = []) ∧
      ∀ blk, ptr = some blk → blk.payload.length = P := by
  unfold PktManager.getPktblock at hget
  cases hitems : m.pktBlk.items with
  | nil =>
    simp only [Fifo.pop, hitems, Except.ok.injEq, Prod.mk.injEq] at hget
    obtain ⟨rfl, rfl⟩ := hget
    exact ⟨rfl, h, by simp, by simp⟩
  | cons head items =>
    cases head with
    | none =>
      simp only [Fifo.pop, hitems] at hget
      cases hget
    | some blk =>
      simp only [Fifo.pop, hitems, Except.ok.injEq, Prod.mk.injEq] at hget
      obtain ⟨rfl, rfl⟩ := hget
      have hmem : ∀ x, x ∈ items → x ∈ m.pktBlk.items := by
        intro x hx
        rw [hitems]
        exact List.mem_cons_of_mem _ hx
      refine ⟨rfl, ⟨fun x hx => h.free x (hmem _ hx), ?_, h.held, h.capacity⟩, by simp, ?_⟩
      · have hroom := h.room
        rw [hitems, List.length_cons] at hroom
        exact Nat.le_of_succ_le hroom
      · intro x hx
        cases hx
        exact h.free blk (by rw [hitems]; exact List.mem_cons_self)

theorem allocHeader_windows {isCont : Bool} {e : NetErr} (h : Windows P m b) (hP : P < 2 ^ 32)
    (hcall : allocHeader m b n isCont = .ok (e, m', b')) :
    KeepsIff P m m' b' (HeaderFits P m b n isCont) := by
  unfold allocHeader at hcall
  split at hcall
  · rename_i hlist
    cases hcall
    exact .of_windows (.inl hlist) rfl h
  · cases hcall
  rename_i first rest hlist
  have hfirst : first.Within P := h.held first (by rw [hlist]; exact List.mem_cons_self)
  have hend := hfirst.fits
  have hslack : b.frontSlack = first.data := by simp [frontSlack, hlist]
  have hne : b.blkList ≠ [] := by simp [hlist]
  dsimp only at hcall
  split at hcall
  · -- the window grows towards the front and keeps its end
    rename_i hpre
    cases hcall
    have hsum : add32 first.size n = first.size + n := wrapAdd_eq (by omega)
    refine .of_windows (.inr (.inl (by omega))) rfl
      (h.replace (n := n) [] rest hlist rfl (hfirst.sameEnd rfl ?_) rfl rfl)
    simp only [hsum]
    omega
  rename_i hpre
  split at hcall
  · rename_i hcont
    split at hcall
    · rename_i hbig
      cases hcall
      refine .of_windows (.inr (.inr (.inr ?_))) rfl h
      rw [if_pos hcont]
      exact .inr hbig
    rename_i hbig
    simp only [bind_eq_ok] at hcall
    obtain ⟨⟨ptr, m₁⟩, hget, hcall⟩ := hcall
    obtain ⟨hB, hm₁, hnone, hpay⟩ := getPktblock_windows h hget
    cases ptr with
    | none =>
      cases hcall
      refine .of_windows (.inr (.inr (.inr ?_))) hB ⟨hm₁.free, hm₁.room, ?_, ?_⟩
      · rw [if_pos hcont]
        exact .inl (hnone.mp rfl)
      · intro blk hblk
        rcases List.mem_cons.mp hblk with heq | hblk
        · cases heq
        · exact h.held blk hblk
      · exact h.capacity
    | some blk =>
      cases hcall
      have hlen := hpay blk rfl
      refine ⟨hB, fun hfit => ⟨hm₁.free, hm₁.room, ?_, ?_⟩, fun hnot => ?_⟩
      · intro x hx
        rcases List.mem_cons.mp hx with heq | hx
        · cases heq
          have hle : m.blkSize ≤ P := by
            rcases hfit with hfit | hfit | hfit | hfit
            · exact absurd hfit hne
            · omega
            · exact hfit
            · rw [if_pos hcont] at hfit
              rcases hfit with hnil | hlt
              · exact absurd (hnone.mpr hnil) (by simp)
              · exact absurd hlt hbig
          refine ⟨hlen, ?_⟩
          simp only [hB]
          omega
        · exact h.held x hx
      · simp only [pushFront, total_some, h.capacity, add32, wrapAdd]
        omega
      · simp only [HeaderFits, not_or] at hnot
        refine ⟨_, List.mem_cons_self, PktBlock.not_inside hlen ?_⟩
        simp only [hB]
        omega
  · -- the first block is filled up, the rest goes into new blocks
    rename_i hcont
    simp only [bind_eq_ok] at hcall
    obtain ⟨⟨ok, m₁, b₁⟩, halloc, hcall⟩ := hcall
    have hsum : add32 first.size first.data = first.size + first.data := wrapAdd_eq (by omega)
    have hflush : Windows P m { b with
        blkList := some { first with data := 0, size := add32 first.size first.data } :: rest
        capacity := add32 b.capacity first.data } := by
      refine h.replace (n := first.data) [] rest hlist rfl (hfirst.sameEnd rfl ?_) rfl rfl
      simp only [hsum]
      omega
    have hkeeps := alloc_windows hflush halloc
    have hiff : AllocFits P m (n - first.data) true ↔ HeaderFits P m b n isCont := by
      simp only [AllocFits, HeaderFits, hslack, hne, hcont]
      grind
    cases ok with
    | true =>
      cases hcall
      exact hkeeps.congr hiff
    | false =>
      cases hcall
      exact hkeeps.congr hiff

/-! ## resize -/

/-- The last block can take the bytes that `resize` adds to it: all `n` of
them when `get_last_size` says that there is room, else what is missing up
to `B` bytes. The sum may also wrap around, which makes the window smaller. -/
def StretchFits (P B n : Nat) (tail : PktBlock) : Prop :=
  if n ≤ tail.getLastSize B then tail.data + tail.size + n ≤ P ∨ 2 ^ 32 ≤ tail.size + n else B ≤ P

instance (P B n : Nat) (tail : PktBlock) : Decidable (StretchFits P B n tail) :=
  inferInstanceAs (Decidable (if n ≤ tail.getLastSize B then _ else _))

/-- A call that grows the buffer finds room in the last block, or places
new blocks well when there is none. -/
def ResizeFits (P : Nat) (m : PktManager) (b : PktBuffer) (n : Nat) : Prop :=
  n ≤ b.capacity ∨
    if b.capacity = 0 then AllocFits P m n false
    else ∀ tail ∈ b.blkList.getLast?.join, StretchFits P m.blkSize n tail

instance (P : Nat) (m : PktManager) (b : PktBuffer) (n : Nat) : Decidable (ResizeFits P m b n) :=
  inferInstanceAs (Decidable (_ ∨ if b.capacity = 0 then _ else _))

theorem splitLast_list {l init : List BlkPtr} {tail : PktBlock}
    (h : splitLast l = .ok (init, tail)) : l = init ++ [some tail] := by
  induction l generalizing init with
  | nil => cases h
  | cons ptr l ih =>
    cases l with
    | nil =>
      cases ptr with
      | none => cases h
      | some blk =>
        cases h
        rfl
    | cons ptr' l =>
      simp only [splitLast, bind_eq_ok] at h
      obtain ⟨⟨init', tail'⟩, hsplit, heq⟩ := h
      cases heq
      rw [ih hsplit, List.cons_append]

theorem stretch_windows {init : List BlkPtr} {tail : PktBlock} {k : Nat} (h : Windows P m b)
    (hP : P < 2 ^ 32) (hk : k < 2 ^ 32) (hlist : b.blkList = init ++ [some tail])
    (hlist' : b'.blkList = init ++ [some { tail with size := add32 tail.size k }])
    (hcap : b'.capacity = add32 b.capacity k) :
    KeepsIff P m m b' (tail.data + tail.size + k ≤ P ∨ 2 ^ 32 ≤ tail.size + k) := by
  have htail : tail.Within P := h.held tail (by rw [hlist]; simp)
  have hend := htail.fits
  refine ⟨rfl, fun hfit => h.replace init [] hlist hlist' ⟨htail.payload, ?_⟩ rfl hcap,
    fun hnot => ⟨{ tail with size := add32 tail.size k }, by rw [hlist']; simp,
      PktBlock.not_inside htail.payload ?_⟩⟩
  · simp only [add32, wrapAdd]
    omega
  · simp only [add32, wrapAdd]
    omega

theorem dropLoop_nil {l : List BlkPtr} {c c' : Nat} (h : dropLoop m l c = .ok (m', c')) :
    l = [] ∧ m' = m ∧ c' = c := by
  induction l generalizing m c with
  | nil =>
    cases h
    exact ⟨rfl, rfl, rfl⟩
  | cons ptr l ih =>
    cases ptr with
    | none => cases h
    | some blk =>
      cases l with
      | nil => cases h
      | cons ptr' l =>
        obtain ⟨hnil, -⟩ := ih h
        cases hnil

/-- The first loop stops behind the block with which the sizes reach `n`. -/
theorem findTail_list {l kept rest : List BlkPtr} {c : Nat} (hc : c < 2 ^ 32)
    (h : findTail n l c = .ok (kept, rest)) :
    l = kept ++ rest ∧ ∃ init tail, kept = init ++ [some tail] ∧
      n ≤ ((c + total init) % 2 ^ 32 + tail.size) % 2 ^ 32 ∧
      (init = [] ∨ (c + total init) % 2 ^ 32 < n) := by
  induction l generalizing c kept with
  | nil => cases h
  | cons ptr l ih =>
    cases ptr with
    | none => cases h
    | some blk =>
      simp only [findTail] at h
      split at h
      · rename_i hreach
        cases h
        refine ⟨rfl, [], blk, rfl, ?_, .inl rfl⟩
        rw [total_nil, Nat.add_zero, Nat.mod_eq_of_lt hc]
        exact hreach
      · rename_i hbelow
        simp only [bind_eq_ok] at h
        obtain ⟨⟨kept', rest'⟩, hfind, heq⟩ := h
        cases heq
        obtain ⟨hlist, init, tail, hkept, hreach, hstop⟩ := ih (Nat.mod_lt _ (by decide)) hfind
        have hsum : ((c + blk.size) % 2 ^ 32 + total init) % 2 ^ 32 =
            (c + total (some blk :: init)) % 2 ^ 32 := by
          rw [total_some, Nat.mod_add_mod, Nat.add_assoc]
        rw [hsum] at hreach hstop
        refine ⟨by rw [hlist, List.cons_append], some blk :: init, tail, by rw [hkept, List.cons_append],
          hreach, .inr ?_⟩
        rcases hstop with rfl | hstop
        · simp only [total_some, total_nil, Nat.add_zero]
          exact Nat.lt_of_not_le hbelow
        · exact hstop

theorem free_windows (self : BufId) (h : Windows P m b) :
    (PktBuffer.free m self b).1.blkSize = m.blkSize ∧
      Windows P (PktBuffer.free m self b).1 (PktBuffer.free m self b).2 := by
  unfold PktBuffer.free
  dsimp only
  split
  · refine ⟨rfl, ?_, ?_, by simp, rfl⟩
    · intro blk hblk
      rcases List.mem_append.mp ((Fifo.items_pushAll_sublist _ _).subset hblk) with hblk | hblk
      · exact h.free blk hblk
      · exact (h.held blk hblk).payload
    · show (m.pktBlk.pushAll b.blkList).items.length ≤ (m.pktBlk.pushAll b.blkList).cap
      rw [Fifo.cap_pushAll]
      exact Fifo.length_pushAll_le h.room _
  · exact ⟨rfl, h.free, h.room, h.held, h.capacity⟩

/-- A shrinking `resize` that returns only makes the last window smaller. -/
theorem shrink_windows {self : BufId} {e : NetErr} (h : Windows P m b) (hlt : n < b.capacity)
    (hcall : resize m self b n = .ok (e, m', b')) : m'.blkSize = m.blkSize ∧ Windows P m' b' := by
  unfold resize at hcall
  rw [if_neg (by omega), if_neg (by omega), if_neg (by omega)] at hcall
  split at hcall
  · cases hcall
    exact free_windows self h
  simp only [bind_eq_ok] at hcall
  obtain ⟨⟨kept, rest⟩, hfind, ⟨m₁, capacity⟩, hdrop, ⟨init, tail⟩, hsplit, heq⟩ := hcall
  obtain ⟨rfl, rfl, rfl⟩ := dropLoop_nil hdrop
  obtain ⟨hlist, init', tail', hkept, hreach, hstop⟩ := findTail_list (by decide) hfind
  rw [List.append_nil] at hlist
  have hkept' := splitLast_list hsplit
  obtain ⟨rfl, htails⟩ := List.append_inj' (hkept'.symm.trans hkept) rfl
  cases htails
  cases heq
  have hlist' : b.blkList = init ++ [some tail] := hlist.trans hkept
  have htail : tail.Within P := h.held tail (by rw [hlist']; simp)
  have hcap : b.capacity = (total init + tail.size) % 2 ^ 32 := by
    rw [h.capacity, hlist', total_append, total_some, total_nil, Nat.add_zero]
  have hfront : init = [] → total init = 0 := by
    intro hnil
    rw [hnil, total_nil]
  have hpre : sub32 b.capacity tail.size = total init % 2 ^ 32 := by
    simp only [sub32, wrapSub, hcap]
    omega
  have hle : total init % 2 ^ 32 ≤ n := by
    rcases hstop with hnil | hstop
    · rw [hfront hnil]
      exact Nat.zero_le _
    · omega
  have hsize : sub32 n (total init % 2 ^ 32) = n - total init % 2 ^ 32 :=
    wrapSub_eq hle (by omega)
  have hsmall : n - total init % 2 ^ 32 ≤ tail.size := by
    rw [Nat.zero_add] at hreach
    omega
  have hend := htail.fits
  refine ⟨rfl, h.free, h.room, ?_, ?_⟩
  · intro blk hblk
    simp only [hpre, hsize] at hblk
    rcases List.mem_append.mp hblk with hblk | hblk
    · exact h.held blk (by rw [hlist']; exact List.mem_append_left _ hblk)
    · cases List.mem_singleton.mp hblk
      refine ⟨htail.payload, ?_⟩
      simp only
      omega
  · simp only [hpre, hsize, total_append, total_some, total_nil, add32, wrapAdd, Nat.add_zero,
      Nat.mod_add_mod]

/-- Less slack than `n` is slack, not a difference that has wrapped around. -/
theorem getLastSize_of_lt {B : Nat} {tail : PktBlock} (hB : B < 2 ^ 32) (hn : n < 2 ^ 32)
    (hend : tail.data + tail.size < 2 ^ 32) (hlt : tail.getLastSize B < n) :
    tail.data + tail.size ≤ B ∧ tail.getLastSize B = B - (tail.data + tail.size) := by
  have hle : tail.data + tail.size ≤ B := by
    by_contra hgt
    rw [PktBlock.getLastSize, wrapSub_of_lt (by omega) (by omega)] at hlt
    omega
  exact ⟨hle, wrapSub_eq hle (by omega)⟩

theorem resize_windows {self : BufId} {e : NetErr} (h : Windows P m b) (hP : P < 2 ^ 32)
    (hB : m.blkSize < 2 ^ 32) (hn : n < 2 ^ 32)
    (hcall : resize m self b n = .ok (e, m', b')) : KeepsIff P m m' b' (ResizeFits P m b n) := by
  by_cases hshrink : n < b.capacity
  · obtain ⟨hsame, hkept⟩ := shrink_windows h hshrink hcall
    exact .of_windows (.inl (by omega)) hsame hkept
  unfold resize at hcall
  split at hcall
  · rename_i hsame
    cases hcall
    exact .of_windows (.inl (by omega)) rfl h
  rename_i hne
  have hgrow : ¬ n ≤ b.capacity := by omega
  split at hcall
  · rename_i hzero
    simp only [bind_eq_ok] at hcall
    obtain ⟨⟨ok, m₁, b₁⟩, halloc, hcall⟩ := hcall
    have hiff : AllocFits P m n false ↔ ResizeFits P m b n := by
      rw [ResizeFits, if_pos hzero]
      exact ⟨.inr, fun hfit => hfit.resolve_left hgrow⟩
    have hkeeps := (alloc_windows h halloc).congr hiff
    cases ok with
    | true =>
      cases hcall
      exact hkeeps
    | false =>
      cases hcall
      exact hkeeps
  rename_i hzero
  rw [if_pos (by omega)] at hcall
  simp only [bind_eq_ok] at hcall
  obtain ⟨⟨init, tail⟩, hsplit, hcall⟩ := hcall
  have hlist := splitLast_list hsplit
  have htail : tail.Within P := h.held tail (by rw [hlist]; simp)
  have hend := htail.fits
  have hiff : ResizeFits P m b n ↔ StretchFits P m.blkSize n tail := by
    simp [ResizeFits, hgrow, hzero, hlist]
  dsimp only at hcall
  split at hcall
  · rename_i hroom
    cases hcall
    refine (stretch_windows h hP hn hlist rfl rfl).congr ?_
    rw [hiff, StretchFits, if_pos hroom]
  · rename_i hroom
    simp only [bind_eq_ok] at hcall
    obtain ⟨⟨ok, m₁, b₁⟩, halloc, hcall⟩ := hcall
    obtain ⟨hle, hlast⟩ := getLastSize_of_lt hB hn (by omega) (Nat.lt_of_not_le hroom)
    have hsum : add32 tail.size (tail.getLastSize m.blkSize) = m.blkSize - tail.data := by
      rw [hlast, add32, wrapAdd]
      omega
    have hstretch : ResizeFits P m b n ↔ m.blkSize ≤ P := by
      rw [hiff, StretchFits, if_neg hroom]
    have hkeeps : KeepsIff P m m₁ b₁ (ResizeFits P m b n) := by
      refine ⟨?_, fun hfit => ?_, fun hnot => ?_⟩
      · obtain ⟨blks, rest, -, hsame, -⟩ := alloc_taken h.room halloc
        exact hsame
      · have hfit := hstretch.mp hfit
        have hstretched : Windows P m { b with
            blkList := init ++ [some { tail with
              size := add32 tail.size (tail.getLastSize m.blkSize) }]
            capacity := add32 b.capacity (tail.getLastSize m.blkSize) } := by
          refine h.replace init [] hlist rfl ⟨htail.payload, ?_⟩ rfl rfl
          simp only [hsum]
          omega
        exact (alloc_windows hstretched halloc).kept (.inr (.inr (.inl hfit)))
      · refine ⟨_, alloc_held h.room halloc (List.mem_append_right _ List.mem_cons_self),
          PktBlock.not_inside htail.payload ?_⟩
        have hout : ¬ m.blkSize ≤ P := fun hfit => hnot (hstretch.mpr hfit)
        simp only [hsum]
        omega
    cases ok with
    | true =>
      cases hcall
      exact hkeeps
    | false =>
      cases hcall
      exact hkeeps

/-! ## set_cont_header -/

/-- The call is refused, or the bytes it gathers fit into a payload. -/
def ContFits (P : Nat) (m : PktManager) (b : PktBuffer) (n : Nat) : Prop :=
  b.capacity < n ∨ m.blkSize < n ∨ n ≤ P

instance (P : Nat) (m : PktManager) (b : PktBuffer) (n : Nat) : Decidable (ContFits P m b n) :=
  inferInstanceAs (Decidable (_ ∨ _))

/-- The first block has gathered bytes of the others at the start of its payload. -/
structure Gathered (P r ptr : Nat) (blks : List BlkPtr) (first : PktBlock)
    (rest gone : List BlkPtr) : Prop where
  payload : first.payload.length = P
  data : first.data = 0
  size : first.size = ptr + min r (total blks)
  le : first.size ≤ P
  total : first.size + total rest = ptr + total blks
  rest : ∀ blk, some blk ∈ rest → blk.Within P
  gone : ∀ blk, some blk ∈ gone → blk.payload.length = P

theorem contLoop_gathered {r ptr : Nat} {first first' : PktBlock} {blks rest gone : List BlkPtr}
    (hP : P < 2 ^ 32) (hpay : first.payload.length = P) (hdata : first.data = 0)
    (hsize : first.size = ptr) (hptr : ptr ≤ P) (hblks : ∀ blk, some blk ∈ blks → blk.Within P)
    (h : contLoop r first ptr blks = .ok (first', rest, gone)) :
    Gathered P r ptr blks first' rest gone := by
  induction blks generalizing r ptr first rest gone with
  | nil =>
    cases r with
    | zero =>
      cases h
      exact ⟨hpay, hdata, by simp [hsize], by omega, by simp [hsize], by simp, by simp⟩
    | succ r =>
      cases h
      exact ⟨hpay, hdata, by simp [hsize], by omega, by simp [hsize], by simp, by simp⟩
  | cons ptr' blks ih =>
    cases r with
    | zero =>
      cases h
      exact ⟨hpay, hdata, by simp [hsize], by omega, by rw [hsize], hblks, by simp⟩
    | succ r =>
      cases ptr' with
      | none => cases h
      | some now =>
        simp only [contLoop, bind_eq_ok] at h
        obtain ⟨bytes, hload, payload, hstore, h⟩ := h
        have hnow : now.Within P := hblks now List.mem_cons_self
        have hrest : ∀ blk, some blk ∈ blks → blk.Within P :=
          fun blk hblk => hblks blk (List.mem_cons_of_mem _ hblk)
        have hend := hnow.fits
        obtain ⟨hlen, hroom⟩ := store_length hstore
        rw [load_length hload, hpay] at hroom
        have hsum : add32 first.size (min (r + 1) now.size) = ptr + min (r + 1) now.size := by
          rw [hsize]
          exact wrapAdd_eq (by omega)
        split at h
        · rename_i hzero
          simp only [bind_eq_ok] at h
          obtain ⟨⟨first₁, rest₁, gone₁⟩, hloop, heq⟩ := h
          simp only [Except.ok.injEq, Prod.mk.injEq] at heq
          obtain ⟨rfl, rfl, rfl⟩ := heq
          have hg : Gathered P (r + 1 - min (r + 1) now.size) (ptr + min (r + 1) now.size) blks
              first₁ rest₁ gone₁ := by
            refine ih ?_ ?_ ?_ hroom hrest hloop
            · exact hlen.trans hpay
            · exact hdata
            · exact hsum
          have hgsize := hg.size
          have hgtotal := hg.total
          refine ⟨hg.payload, hg.data, ?_, hg.le, ?_, hg.rest, ?_⟩
          · rw [total_some]
            omega
          · rw [total_some]
            omega
          · intro blk hblk
            rcases List.mem_cons.mp hblk with heq | hblk
            · cases heq
              exact hnow.payload
            · exact hg.gone blk hblk
        · rename_i hleft
          cases h
          refine ⟨hlen.trans hpay, hdata, ?_, ?_, ?_, ?_, by simp⟩
          · simp only [hsum, total_some]
            omega
          · simp only [hsum]
            exact hroom
          · simp only [hsum, total_some]
            omega
          · intro blk hblk
            rcases List.mem_cons.mp hblk with heq | hblk
            · cases heq
              refine hnow.sameEnd rfl ?_
              simp only
              omega
            · exact hrest blk hblk

/-- A call that copied beyond a payload did not return; one that returned
has gathered at most `P` bytes. -/
theorem setContHeader_windows {e : NetErr} (h : Windows P m b) (hP : P < 2 ^ 32)
    (hcall : setContHeader m b n = .ok (e, m', b')) : KeepsIff P m m' b' (ContFits P m b n) := by
  unfold setContHeader at hcall
  split at hcall
  · rename_i hbig
    cases hcall
    exact .of_windows (.inl hbig) rfl h
  rename_i hcap
  split at hcall
  · rename_i hbig
    cases hcall
    exact .of_windows (.inr (.inl hbig)) rfl h
  split at hcall
  · cases hcall
  · cases hcall
  rename_i first rest hlist
  have hfirst : first.Within P := h.held first (by rw [hlist]; exact List.mem_cons_self)
  have hend := hfirst.fits
  dsimp only at hcall
  split at hcall
  · rename_i henough
    cases hcall
    exact .of_windows (.inr (.inr (by omega))) rfl h
  rename_i hmore
  simp only [bind_eq_ok] at hcall
  obtain ⟨bytes, hload, payload, hstore, ⟨first', rest', gone⟩, hloop, heq⟩ := hcall
  cases heq
  have hrest : ∀ blk, some blk ∈ rest → blk.Within P :=
    fun blk hblk => h.held blk (by rw [hlist]; exact List.mem_cons_of_mem _ hblk)
  have hg : Gathered P (n - first.size) first.size rest first' rest' gone := by
    refine contLoop_gathered hP ?_ ?_ ?_ (by omega) hrest hloop
    · exact (store_length hstore).1.trans hfirst.payload
    · rfl
    · rfl
  have hgsize := hg.size
  have hgle := hg.le
  have hgtotal := hg.total
  have hcapacity : b.capacity = (first.size + total rest) % 2 ^ 32 := by
    rw [h.capacity, hlist, total_some]
  -- the sum of the sizes is at least `m_capacity`, so nothing is missing
  refine .of_windows (.inr (.inr (by omega))) rfl ⟨?_, ?_, ?_, ?_⟩
  · intro blk hblk
    rcases List.mem_append.mp ((Fifo.items_pushAll_sublist _ _).subset hblk) with hblk | hblk
    · exact h.free blk hblk
    · exact hg.gone blk hblk
  · show (m.pktBlk.pushAll gone).items.length ≤ (m.pktBlk.pushAll gone).cap
    rw [Fifo.cap_pushAll]
    exact Fifo.length_pushAll_le h.room _
  · intro blk hblk
    rcases List.mem_cons.mp hblk with heq | hblk
    · cases heq
      refine ⟨hg.payload, ?_⟩
      rw [hg.data, Nat.zero_add]
      exact hgle
    · exact hg.rest blk hblk
  · simp only [total_some, hgtotal]
    exact hcapacity

/-! ## write -/

/-- Where the window of a block lies. -/
def place (blk : PktBlock) : Nat × Nat × Nat := (blk.data, blk.size, blk.payload.length)

/-- The capacity and the windows of a buffer. -/
def frame (b : PktBuffer) : Nat × List (Option (Nat × Nat × Nat)) :=
  (b.capacity, b.blkList.map (Option.map place))

theorem nextBlk_frame (h : b.nextBlk = .ok b') : b'.frame = b.frame := by
  unfold nextBlk at h
  split at h
  · split at h
    · cases h
      rfl
    · cases h
    · cases h
      rfl
  · cases h
  · cases h

theorem moveForward_frame (h : b.moveForward n = .ok b') : b'.frame = b.frame := by
  simp only [moveForward, bind_eq_ok] at h
  obtain ⟨blk, -, off, -, h⟩ := h
  split at h
  · have hnext := nextBlk_frame h
    exact hnext
  · cases h
    rfl

/-- A store changes bytes of one payload, not its length. -/
theorem storeCur_frame {xs : List UInt8} (h : b.storeCur xs = .ok b') : b'.frame = b.frame := by
  unfold storeCur at h
  split at h
  · cases h
    rfl
  simp only [bind_eq_ok] at h
  obtain ⟨blk, hcur, off, -, payload, hstore, h⟩ := h
  split at h
  · rename_i i hi
    cases h
    have hlen := (store_length hstore).1
    have hblk : b.blkList[i]? = some (some blk) := by
      unfold derefCur at hcur
      rw [hi] at hcur
      dsimp only at hcur
      split at hcur
      · rename_i heq
        cases hcur
        exact heq
      · cases hcur
      · cases hcur
    obtain ⟨hlt, hget⟩ := List.getElem?_eq_some_iff.mp hblk
    have hlt' : i < (b.blkList.map (Option.map place)).length := by simpa using hlt
    have hat : (b.blkList.map (Option.map place))[i] =
        (some { blk with payload := payload }).map place := by
      simp [hget, place, hlen]
    simp only [frame, List.map_set]
    rw [← hat, List.set_getElem_self]
  · cases h
  · cases h

theorem total_of_places {l l' : List BlkPtr}
    (h : l'.map (Option.map place) = l.map (Option.map place)) : total l' = total l := by
  have hsizes : ∀ ptrs : List BlkPtr, total ptrs =
      ((ptrs.map (Option.map place)).reduceOption.map fun p => p.2.1).sum := by
    intro ptrs
    rw [List.reduceOption_map, List.map_map]
    rfl
  rw [hsizes, hsizes, h]

theorem Windows.of_frame (h : Windows P m b) (hframe : b'.frame = b.frame) : Windows P m b' := by
  simp only [frame, Prod.mk.injEq] at hframe
  obtain ⟨hcap, hplaces⟩ := hframe
  refine ⟨h.free, h.room, ?_, ?_⟩
  · intro blk hblk
    have hplace : some (place blk) ∈ b.blkList.map (Option.map place) := by
      rw [← hplaces]
      exact List.mem_map_of_mem hblk
    obtain ⟨ptr, hptr, heq⟩ := List.mem_map.mp hplace
    cases ptr with
    | none => cases heq
    | some old =>
      have hold := h.held old hptr
      simp only [Option.map_some, Option.some.injEq, place, Prod.mk.injEq] at heq
      obtain ⟨hdata, hsize, hlen⟩ := heq
      refine ⟨by rw [← hlen]; exact hold.payload, ?_⟩
      rw [← hdata, ← hsize]
      exact hold.fits
  · rw [hcap, h.capacity, total_of_places hplaces]

theorem write_windows {src : Option (List UInt8)} {e : NetErr} (h : Windows P m b)
    (hcall : b.write src n = .ok (e, b')) : Windows P m b' :=
  h.of_frame (write_keeps moveForward_frame storeCur_frame hcall)

end PktBuffer

end TinyTcp.Pkt
