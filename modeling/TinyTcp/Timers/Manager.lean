/-
TinyTcp.Timers.Manager — `Timer` and `TimerManager` of `src/timer.cc`.

Timer objects live in `timer`, under a handle `ι` that stands for the
shared pointer; `timers` is the sequence of `m_timers`, whose elements are
handles and whose order is the source's comparator on the objects behind
them. A search in the set compares with the objects as they are at that
moment, as the tree search of the source does, so an object that is
changed while it is in the set may well not be found any more.

Every operation is one step, under the write lock of the manager, with the
clock value it reads as an argument. `none` is the one thing that must not
happen, `erase` at the end of the set (and a call through a handle that
belongs to no timer). `on_timer_inserted_at_front` is a pure virtual
member; an operation says whether it calls it.

`add_condition_timer` is `add_timer` with a bound callback, and
`has_timer` is used by nobody here; both are left out.
-/
import TinyTcp.Lib.OrderedSet
import Mathlib.Algebra.Group.Nat.Defs
import Mathlib.Logic.Function.Basic

namespace TinyTcp.Timers

open TinyTcp.Lib

variable {ι A κ : Type}

/-! ## Objects -/

/-- A timer object; `addr` is its address and `cb` is `none` for an empty
function. -/
structure Timer (A κ : Type) where
  addr : A
  recurring : Bool
  ms : UInt64
  next : UInt64
  cb : Option κ
  deriving DecidableEq

/-- `Timer(uint64_t next)`, the object the expired timers are compared with. -/
def Timer.ofNext (addr : A) (next : UInt64) : Timer A κ where
  addr := addr
  recurring := false
  ms := 0
  next := next
  cb := none

/-- `Timer(ms, cb, recurring, manager)`, reading the clock. -/
def Timer.create (now : UInt64) (addr : A) (ms : UInt64) (cb : Option κ) (recurring : Bool) :
    Timer A κ where
  addr := addr
  recurring := recurring
  ms := ms
  next := now + ms
  cb := cb

/-- What `list_expired_cb` makes of a timer whose callback it has taken. -/
def Timer.fired (now : UInt64) (t : Timer A κ) : Timer A κ :=
  if t.recurring then { t with next := now + t.ms } else { t with cb := none }

section Order

variable [LinearOrder A]

/-- `Timer::Comparator::operator()` on two shared pointers. -/
def comparator (lhs rhs : Option (Timer A κ)) : Bool :=
  match lhs, rhs with
  | none, none => false
  | none, some _ => true
  | some _, none => false
  | some l, some r =>
      if l.next < r.next then true
      else if r.next < l.next then false
      else decide (l.addr < r.addr)

end Order

/-! ## The manager -/

structure TimerManager (ι A κ : Type) where
  timer : ι → Option (Timer A κ)
  timers : List ι
  tickled : Bool
  previousTime : UInt64

namespace TimerManager

/-- The constructor reads the clock. -/
def create (ι A κ : Type) (now : UInt64) : TimerManager ι A κ where
  timer := fun _ => none
  timers := []
  tickled := false
  previousTime := now

variable (m : TimerManager ι A κ)

def next (h : ι) : Option UInt64 := (m.timer h).map Timer.next

def detectClockRollOver (now : UInt64) : Bool × TimerManager ι A κ :=
  (decide (now < m.previousTime) && decide (now < m.previousTime - 60 * 60 * 1000),
    { m with previousTime := now })

def getNextTime (now : UInt64) : UInt64 × TimerManager ι A κ :=
  let m := { m with tickled := false }
  match m.timers.head?.bind m.next with
  | none => (18446744073709551615, m)
  | some next => if next ≤ now then (0, m) else (next - now, m)

variable [DecidableEq ι]

def setTimer (h : ι) (t : Timer A κ) : TimerManager ι A κ :=
  { m with timer := Function.update m.timer h (some t) }

variable [LinearOrder A]

/-- The order of the set, on handles. -/
def less (h k : ι) : Bool := comparator (m.timer h) (m.timer k)

/-- The private `add_timer`: whether it has called
`on_timer_inserted_at_front`, and the manager. -/
def insertTimer (h : ι) : Bool × TimerManager ι A κ :=
  let (it, timers) := OrderedSet.insert m.less m.timers h
  let atFront := it == 0 && !m.tickled
  (atFront, { m with timers := timers, tickled := m.tickled || atFront })

def addTimer (now : UInt64) (h : ι) (addr : A) (ms : UInt64) (cb : Option κ) (recurring : Bool) :
    Bool × TimerManager ι A κ :=
  (m.setTimer h (.create now addr ms cb recurring)).insertTimer h

def cancel (h : ι) : Option (Bool × TimerManager ι A κ) :=
  match m.timer h with
  | none => none
  | some t =>
      if t.cb.isSome then
        let m := m.setTimer h { t with cb := none }
        match OrderedSet.find m.less m.timers h with
        | some it => some (true, { m with timers := m.timers.eraseIdx it })
        -- `erase(end())`
        | none => none
      else some (false, m)

def refresh (now : UInt64) (h : ι) : Option (Bool × TimerManager ι A κ) :=
  match m.timer h with
  | none => none
  | some t =>
      if t.cb.isNone then some (false, m)
      else
        match OrderedSet.find m.less m.timers h with
        | none => some (false, m)
        | some it =>
            let m := { m with timers := m.timers.eraseIdx it }
            let m := m.setTimer h { t with next := now + t.ms }
            some (true, { m with timers := (OrderedSet.insert m.less m.timers h).2 })

/-- What `reset` returns, and whether it has called
`on_timer_inserted_at_front`. -/
def reset (now : UInt64) (h : ι) (ms : UInt64) (fromNow : Bool) :
    Option ((Bool × Bool) × TimerManager ι A κ) :=
  match m.timer h with
  | none => none
  | some t =>
      if ms = t.ms ∧ fromNow = false then some ((true, false), m)
      else if t.cb.isNone then some ((false, false), m)
      else
        match OrderedSet.find m.less m.timers h with
        | none => some ((false, false), m)
        | some it =>
            let m := { m with timers := m.timers.eraseIdx it }
            let start := if fromNow then now else t.next - t.ms
            let (atFront, m) := (m.setTimer h { t with ms := ms, next := start + ms }).insertTimer h
            some ((true, atFront), m)

/-- One pass of the loop over the expired timers: the timer is armed again
or loses its callback. -/
def fire (now : UInt64) (h : ι) : TimerManager ι A κ :=
  match m.timer h with
  | none => m
  | some t =>
      let m := m.setTimer h (t.fired now)
      if t.recurring then { m with timers := (OrderedSet.insert m.less m.timers h).2 } else m

/-- The loop over the expired timers, with the callbacks it has taken. -/
def fireAll (now : UInt64) :
    List ι → TimerManager ι A κ → List (ι × Option κ) × TimerManager ι A κ
  | [], m => ([], m)
  | h :: hs, m =>
      let cb := (m.timer h).bind Timer.cb
      let (cbs, m) := fireAll now hs (m.fire now h)
      ((h, cb) :: cbs, m)

/-- The position behind the expired timers; `probe` is the address of the
object that the search compares with. -/
def expiredEnd (now : UInt64) (probe : A) (rollOver : Bool) : Nat :=
  let it :=
    if rollOver then m.timers.length
    else OrderedSet.lowerBound (fun h => comparator (m.timer h) (some (.ofNext probe now))) m.timers
  it + OrderedSet.lowerBound (fun h => m.next h == some now) (m.timers.drop it)

/-- The callbacks taken, each with the timer it belongs to. -/
def listExpiredCb (now : UInt64) (probe : A) : List (ι × Option κ) × TimerManager ι A κ :=
  if m.timers = [] then ([], m)
  else
    let (rollOver, m) := m.detectClockRollOver now
    if !rollOver && (m.timers.head?.bind m.next).any (now < ·) then ([], m)
    else
      let it := m.expiredEnd now probe rollOver
      fireAll now (m.timers.take it) { m with timers := m.timers.drop it }

end TimerManager

/-! ## Operations as labels -/

inductive Op (ι A κ : Type) where
  | addTimer (h : ι) (addr : A) (ms : UInt64) (cb : Option κ) (recurring : Bool)
  | cancel (h : ι)
  | refresh (h : ι)
  | reset (h : ι) (ms : UInt64) (fromNow : Bool)
  | getNextTime
  | listExpiredCb (probe : A)
  deriving DecidableEq

/-- What an operation gives its caller, and whether it has called
`on_timer_inserted_at_front`. -/
inductive Outcome (ι κ : Type) where
  | returned (ok : Bool) (notified : Bool)
  | wait (ms : UInt64)
  | collected (cbs : List (ι × Option κ))
  deriving DecidableEq

variable [DecidableEq ι] [LinearOrder A]

/-- One operation at the clock value `now`. A new timer comes under a new
handle, and at an address where none of the timers of the set lives. -/
def TimerManager.apply (m : TimerManager ι A κ) (now : UInt64) :
    Op ι A κ → Option (Outcome ι κ × TimerManager ι A κ)
  | .addTimer h addr ms cb recurring =>
      if (m.timer h).isNone ∧ ∀ k ∈ m.timers, (m.timer k).map Timer.addr ≠ some addr then
        let (notified, m) := m.addTimer now h addr ms cb recurring
        some (.returned true notified, m)
      else none
  | .cancel h => (m.cancel h).map fun (ok, m) => (.returned ok false, m)
  | .refresh h => (m.refresh now h).map fun (ok, m) => (.returned ok false, m)
  | .reset h ms fromNow =>
      (m.reset now h ms fromNow).map fun ((ok, notified), m) => (.returned ok notified, m)
  | .getNextTime =>
      let (ms, m) := m.getNextTime now
      some (.wait ms, m)
  | .listExpiredCb probe =>
      let (cbs, m) := m.listExpiredCb now probe
      some (.collected cbs, m)

end TinyTcp.Timers
