/-
TinyTcp.Msg.Ledger — where every message block is.

Each block is in its pool, in the queue of messages, or claimed by a
thread, and a `Stage` says what its holder relies on: the pool it came
from and the message in it. `Ledger` is the invariant. It names the claims
of the threads, so a thread that moves carries those of the others along
unchanged.

The lemmas are the moves: taking a block out of a pool and giving it back,
writing a message into a block one has, sending it and receiving it.
-/
import TinyTcp.Msg.Exmsg
import TinyTcp.Lib.Claims
import Mathlib.Algebra.Order.Group.Multiset

namespace TinyTcp.Msg

open TinyTcp.Lib TinyTcp.Pkt TinyTcp.Ring

variable {ι κ : Type}

/-! ## Stages -/

/-- In a pool, an announcement, a callback, a message of either kind, or
out of everyone's sight. -/
inductive Stage (ι κ : Type) where
  | free (pool : MsgPool)
  | netif (netif : ι)
  | func (func : Func κ)
  | ready
  | lost

namespace Stage

def Meets : Stage ι κ → MsgPool × ExMsg ι κ → Prop
  | .free pool, (p, _) => p = pool
  | .netif n, (p, m) => p = .main ∧ m = ⟨.netifIn, .netif n⟩
  | .func f, (p, m) => p = .timer ∧ m = ⟨.timerFun, .timer f⟩
  | .ready, (p, m) => (∃ n, p = .main ∧ m = ⟨.netifIn, .netif n⟩) ∨
      ∃ f, p = .timer ∧ m = ⟨.timerFun, .timer f⟩
  | .lost, _ => True

theorem ready_of_netif {n : ι} {a : MsgPool × ExMsg ι κ} (h : (netif n).Meets a) :
    (ready : Stage ι κ).Meets a := Or.inl ⟨n, h⟩

theorem ready_of_func {f : Func κ} {a : MsgPool × ExMsg ι κ} (h : (func f).Meets a) :
    (ready : Stage ι κ).Meets a := Or.inr ⟨f, h⟩

end Stage

abbrev MsgClaims (ι κ : Type) := Multiset (MsgPtr × Stage ι κ)

/-- The claims of what lies in the two pools and in the queue. -/
def shelf (main timer queue : List MsgPtr) : MsgClaims ι κ :=
  (main : Multiset MsgPtr).map (·, Stage.free .main) +
    (timer : Multiset MsgPtr).map (·, Stage.free .timer) +
    (queue : Multiset MsgPtr).map (·, Stage.ready)

section Shelf

variable (main timer queue : List MsgPtr) (claims : MsgClaims ι κ) (x : MsgPtr)

theorem shelf_main : shelf (x :: main) timer queue + claims =
    shelf main timer queue + (x, .free .main) ::ₘ claims := by
  unfold shelf
  rw [← Multiset.cons_coe, Multiset.map_cons, Multiset.add_cons, Multiset.cons_add,
    Multiset.cons_add, Multiset.cons_add]

theorem shelf_timer : shelf main (x :: timer) queue + claims =
    shelf main timer queue + (x, .free .timer) ::ₘ claims := by
  unfold shelf
  rw [← Multiset.cons_coe, Multiset.map_cons, Multiset.add_cons, Multiset.add_cons,
    Multiset.cons_add, Multiset.cons_add]

theorem shelf_queue : shelf main timer (x :: queue) + claims =
    shelf main timer queue + (x, .ready) ::ₘ claims := by
  unfold shelf
  rw [← Multiset.cons_coe, Multiset.map_cons, Multiset.add_cons, Multiset.add_cons,
    Multiset.cons_add]

/-- The order on a shelf does not matter. -/
theorem shelf_perm {main' timer' queue' : List MsgPtr} (hmain : main.Perm main')
    (htimer : timer.Perm timer') (hqueue : queue.Perm queue') :
    (shelf main timer queue : MsgClaims ι κ) = shelf main' timer' queue' := by
  unfold shelf
  rw [Multiset.coe_eq_coe.mpr hmain, Multiset.coe_eq_coe.mpr htimer, Multiset.coe_eq_coe.mpr hqueue]

end Shelf

/-! ## The ledger -/

namespace Sys

variable (s : Sys ι κ)

def pool : MsgPool → Fifo MsgPtr
  | .main => s.memBlock
  | .timer => s.timerMemBlock

/-- The messages that wait, oldest first. -/
def messages : List (ExMsg ι κ) := s.msgQueue.items.map s.mem

/-- What a block is and what is in it. -/
def cell (msg : MsgPtr) : MsgPool × ExMsg ι κ := (msg.pool, s.mem msg)

/-- What the pools and the queue hold. -/
def shelved : MsgClaims ι κ := shelf s.memBlock.items s.timerMemBlock.items s.msgQueue.items

theorem cell_setMsg (msg : MsgPtr) (m : ExMsg ι κ) :
    (s.setMsg msg m).cell = Function.update s.cell msg (msg.pool, m) := by
  funext p
  by_cases hp : p = msg
  · simp only [hp, cell, setMsg, Function.update_self]
  · simp only [cell, setMsg, Function.update_of_ne hp]

theorem setMsg_setMsg (msg : MsgPtr) (m m' : ExMsg ι κ) :
    (s.setMsg msg m).setMsg msg m' = s.setMsg msg m' := by
  simp only [setMsg, Function.update_idem]

end Sys

/-- All `blocks` are accounted for by the pools, the queue and the threads
with their `claims`. -/
structure Ledger (blocks : Multiset MsgPtr) (s : Sys ι κ) (claims : MsgClaims ι κ) : Prop where
  nodup : blocks.Nodup
  room : ∀ pool, (blocks.filter (·.pool = pool)).card ≤ (s.pool pool).cap
  held : Held Stage.Meets blocks s.cell (s.shelved + claims)

namespace Ledger

variable {blocks : Multiset MsgPtr} {s s' : Sys ι κ} {claims claims' : MsgClaims ι κ} {x : MsgPtr}
  {t u : Stage ι κ} {m : ExMsg ι κ}

theorem held_cons (h : Ledger blocks s ((x, t) ::ₘ claims)) :
    Held Stage.Meets blocks s.cell ((x, t) ::ₘ (s.shelved + claims)) := by
  have hheld := h.held
  rw [Multiset.add_cons] at hheld
  exact hheld

theorem meets (h : Ledger blocks s ((x, t) ::ₘ claims)) : t.Meets (x.pool, s.mem x) :=
  h.held_cons.met_cons

/-- The block of a thread is not in the queue. -/
theorem not_queued (h : Ledger blocks s ((x, t) ::ₘ claims)) : x ∉ s.msgQueue.items := by
  intro hx
  have hin : (x, Stage.ready) ∈ s.shelved + claims := by
    refine Multiset.mem_add.mpr (Or.inl (Multiset.mem_add.mpr (Or.inr ?_)))
    exact Multiset.mem_map.mpr ⟨x, hx, rfl⟩
  exact h.held_cons.ne_of_mem h.nodup hin rfl

/-! ## Writing -/

/-- A thread writes a message into its block; those that wait are as before. -/
theorem write (h : Ledger blocks s ((x, t) ::ₘ claims)) (hm : u.Meets (x.pool, m)) :
    Ledger blocks (s.setMsg x m) ((x, u) ::ₘ claims) := by
  refine ⟨h.nodup, h.room, ?_⟩
  rw [Sys.cell_setMsg, Multiset.add_cons]
  exact h.held_cons.write h.nodup hm

theorem messages_write (h : Ledger blocks s ((x, t) ::ₘ claims)) (m : ExMsg ι κ) :
    (s.setMsg x m).messages = s.messages := by
  refine List.map_congr_left fun p hp => ?_
  have hne : p ≠ x := fun heq => h.not_queued (heq ▸ hp)
  exact Function.update_of_ne hne _ _

/-- A thread relies on something else about its block. -/
theorem relax (h : Ledger blocks s ((x, t) ::ₘ claims)) (hu : u.Meets (x.pool, s.mem x)) :
    Ledger blocks s ((x, u) ::ₘ claims) := by
  refine ⟨h.nodup, h.room, ?_⟩
  rw [Multiset.add_cons]
  exact h.held_cons.relax hu

/-! ## The pools and the queue -/

/-- Blocks move between the pools, the queue and the threads. -/
theorem reshelve (h : Ledger blocks s claims) (hmem : s'.mem = s.mem)
    (hcap : ∀ pool, (s'.pool pool).cap = (s.pool pool).cap)
    (hsum : s'.shelved + claims' = s.shelved + claims) :
    Ledger blocks s' claims' := by
  have hcell : s'.cell = s.cell := by
    unfold Sys.cell
    rw [hmem]
  refine ⟨h.nodup, fun pool => ?_, ?_⟩
  · rw [hcap]
    exact h.room pool
  · rw [hcell, hsum]
    exact h.held

/-- What the ledger does not look at. -/
theorem congr (h : Ledger blocks s claims) (hmem : s'.mem = s.mem)
    (hmain : s'.memBlock = s.memBlock) (htimer : s'.timerMemBlock = s.timerMemBlock)
    (hqueue : s'.msgQueue = s.msgQueue) : Ledger blocks s' claims := by
  refine h.reshelve hmem (fun pool => ?_) ?_
  · cases pool with
    | main => exact congrArg Fifo.cap hmain
    | timer => exact congrArg Fifo.cap htimer
  · unfold Sys.shelved
    rw [hmain, htimer, hqueue]

/-- Blocks of the pool `p` that are in different places are not more than
it has room for. -/
theorem room_of_le (h : Ledger blocks s claims) {p : MsgPool} {xs : Multiset MsgPtr}
    (hle : xs ≤ blocks) (hpool : ∀ x ∈ xs, x.pool = p) : xs.card ≤ (s.pool p).cap := by
  refine (Multiset.card_le_card ?_).trans (h.room p)
  rw [← Multiset.filter_eq_self.mpr hpool]
  exact Multiset.filter_le_filter _ hle

/-- A block a thread gives back finds room in its pool. -/
theorem room_for (h : Ledger blocks s ((x, t) ::ₘ claims)) :
    (s.pool x.pool).items.length < (s.pool x.pool).cap := by
  have hshelf : ((s.pool x.pool).items : Multiset MsgPtr).map (·, Stage.free x.pool) ≤
      (s.shelved : MsgClaims ι κ) := by
    unfold Sys.shelved shelf Sys.pool
    cases x.pool with
    | main => exact (Multiset.le_add_right _ _).trans (Multiset.le_add_right _ _)
    | timer => exact (Multiset.le_add_left _ _).trans (Multiset.le_add_right _ _)
  have hle : x ::ₘ ((s.pool x.pool).items : Multiset MsgPtr) ≤ blocks := by
    rw [← h.held_cons.cells, Multiset.map_cons, Multiset.map_add]
    refine Multiset.cons_le_cons _ (le_trans ?_ (Multiset.le_add_right _ _))
    have hmap := Multiset.map_le_map (f := Prod.fst) hshelf
    rw [Multiset.map_map] at hmap
    simpa using hmap
  have hpool : ∀ y ∈ x ::ₘ ((s.pool x.pool).items : Multiset MsgPtr), y.pool = x.pool := by
    intro y hy
    rcases Multiset.mem_cons.mp hy with rfl | hy
    · rfl
    · have hclaim : (y, Stage.free x.pool) ∈ s.shelved + (x, t) ::ₘ claims :=
        Multiset.mem_add.mpr (Or.inl (Multiset.mem_of_le hshelf (Multiset.mem_map.mpr ⟨y, hy, rfl⟩)))
      exact h.held.met _ hclaim
  have hcard := h.room_of_le hle hpool
  rw [Multiset.card_cons, Multiset.coe_card] at hcard
  exact hcard

theorem popMain (h : Ledger blocks s claims) {rest : List MsgPtr}
    (hitems : s.memBlock.items = x :: rest) :
    Ledger blocks { s with memBlock := { s.memBlock with items := rest } }
      ((x, .free .main) ::ₘ claims) := by
  refine h.reshelve rfl (fun pool => by cases pool <;> rfl) ?_
  rw [Sys.shelved, Sys.shelved, hitems, shelf_main]

theorem popTimer (h : Ledger blocks s claims) {rest : List MsgPtr}
    (hitems : s.timerMemBlock.items = x :: rest) :
    Ledger blocks { s with timerMemBlock := { s.timerMemBlock with items := rest } }
      ((x, .free .timer) ::ₘ claims) := by
  refine h.reshelve rfl (fun pool => by cases pool <;> rfl) ?_
  rw [Sys.shelved, Sys.shelved, hitems, shelf_timer]

/-- A message is received. -/
theorem popMsg (h : Ledger blocks s claims) {rest : List MsgPtr}
    (hitems : s.msgQueue.items = x :: rest) :
    Ledger blocks { s with msgQueue := { s.msgQueue with items := rest } }
      ((x, .ready) ::ₘ claims) := by
  refine h.reshelve rfl (fun pool => by cases pool <;> rfl) ?_
  rw [Sys.shelved, Sys.shelved, hitems, shelf_queue]

/-- A message is sent. -/
theorem pushMsg (h : Ledger blocks s ((x, .ready) ::ₘ claims)) :
    Ledger blocks { s with msgQueue := { s.msgQueue with items := s.msgQueue.items ++ [x] } }
      claims := by
  refine h.reshelve rfl (fun pool => by cases pool <;> rfl) ?_
  rw [Sys.shelved, Sys.shelved, ← shelf_queue]
  exact congrArg (· + claims)
    (shelf_perm _ _ _ (.refl _) (.refl _) (List.perm_append_singleton x s.msgQueue.items))

theorem pushMain (h : Ledger blocks s ((x, t) ::ₘ claims)) (hpool : x.pool = .main) :
    s.memBlock.push x = (true, { s.memBlock with items := s.memBlock.items ++ [x] }) ∧
      Ledger blocks { s with memBlock := { s.memBlock with items := s.memBlock.items ++ [x] } }
        claims := by
  have hroom := h.room_for
  rw [hpool] at hroom
  refine ⟨Fifo.push_of_room hroom x, ?_⟩
  refine (h.relax (u := .free .main) hpool).reshelve rfl (fun pool => by cases pool <;> rfl) ?_
  rw [Sys.shelved, Sys.shelved, ← shelf_main]
  exact congrArg (· + claims)
    (shelf_perm _ _ _ (List.perm_append_singleton x s.memBlock.items) (.refl _) (.refl _))

theorem pushTimer (h : Ledger blocks s ((x, t) ::ₘ claims)) (hpool : x.pool = .timer) :
    s.timerMemBlock.push x =
        (true, { s.timerMemBlock with items := s.timerMemBlock.items ++ [x] }) ∧
      Ledger blocks
        { s with timerMemBlock := { s.timerMemBlock with items := s.timerMemBlock.items ++ [x] } }
        claims := by
  have hroom := h.room_for
  rw [hpool] at hroom
  refine ⟨Fifo.push_of_room hroom x, ?_⟩
  refine (h.relax (u := .free .timer) hpool).reshelve rfl (fun pool => by cases pool <;> rfl) ?_
  rw [Sys.shelved, Sys.shelved, ← shelf_timer]
  exact congrArg (· + claims)
    (shelf_perm _ _ _ (.refl _) (List.perm_append_singleton x s.timerMemBlock.items) (.refl _))

end Ledger

end TinyTcp.Msg
