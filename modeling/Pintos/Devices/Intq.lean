import Pintos.Lib.Machine

/-!
# Interrupt queues

`devices/intq.c`, used by any number of threads and by interrupt handlers. The functions run with
interrupts off: a thread inside one of them loses the processor where it blocks and where `sema_up`
yields, and handlers run while no thread is inside. Whom `sema_up` wakes and whether it yields
depends on priorities and is left open.
-/

namespace Pintos.Devices

open Function

def intqBufsize : Nat := 64

/-- The two fields that record a waiting thread. -/
inductive Waiter where
  | notFull
  | notEmpty
  deriving DecidableEq

inductive Op where
  | getc
  | putc (byte : UInt8)
  deriving DecidableEq

/-- The field the operation waits by. -/
def Op.waiter : Op → Waiter
  | .getc => .notEmpty
  | .putc _ => .notFull

/-- The field the operation signals. -/
def Op.other : Op → Waiter
  | .getc => .notFull
  | .putc _ => .notEmpty

abbrev ThreadPtr := Nat

structure Intq where
  /-- The semaphore of the lock, and the threads that wait for it. -/
  value : Nat := 1
  waiters : List ThreadPtr := []
  holder : Option ThreadPtr := none
  waiter : Waiter → Option ThreadPtr := fun _ => none
  buf : Nat → UInt8
  head : Nat := 0
  tail : Nat := 0

def next (pos : Nat) : Nat := (pos + 1) % intqBufsize

namespace Intq

def empty (q : Intq) : Bool := q.head = q.tail

def full (q : Intq) : Bool := next q.head = q.tail

/-- What a thread that is recorded in the field waits for has not happened. -/
def blocks (q : Intq) : Waiter → Bool
  | .notEmpty => q.empty
  | .notFull => q.full

def setWaiter (q : Intq) (w : Waiter) (t : Option ThreadPtr) : Intq :=
  { q with waiter := update q.waiter w t }

def move (q : Intq) : Op → Intq
  | .getc => { q with tail := next q.tail }
  | .putc byte => { q with buf := update q.buf q.head byte, head := next q.head }

end Intq

/-- Where a thread is in `intq_getc` or `intq_putc`. -/
inductive Pc where
  | outside
  | test (op : Op)
  | acquire (op : Op)
  | wait (op : Op)
  | release (op : Op)
  | move (op : Op)
  deriving DecidableEq

structure Monitor where
  q : Intq
  pc : ThreadPtr → Pc := fun _ => .outside
  blocked : ThreadPtr → Bool := fun _ => false
  /-- The thread that runs inside one of the functions. -/
  running : Option ThreadPtr := none
  /-- The bytes that `intq_getc` has returned, newest first. -/
  returned : List UInt8 := []
  /-- The assertion that has failed. -/
  panic : Option String := none

namespace Monitor

variable (s : Monitor) (t : ThreadPtr)

def fail (text : String) : Monitor := { s with panic := some text }

def goto (pc : Pc) : Monitor := { s with pc := update s.pc t pc }

/-- `thread_block`. -/
def block : Monitor := { s with blocked := update s.blocked t true, running := none }

def threadUnblock : Monitor :=
  if s.blocked t then { s with blocked := update s.blocked t false }
  else s.fail "t->status == THREAD_BLOCKED"

/-- `intq_empty (q)` where a thread waits for `not_empty`, `intq_full (q)` for `not_full`. -/
def waitText : String :=
  "(waiter == &q->not_empty && intq_empty (q)) || (waiter == &q->not_full && intq_full (q))"

def signalText : String :=
  "(waiter == &q->not_empty && !intq_empty (q)) || (waiter == &q->not_full && !intq_full (q))"

def wait (op : Op) : Monitor :=
  if s.q.blocks op.waiter then
    ({ s with q := s.q.setWaiter op.waiter (some t) }.goto t (.release op)).block t
  else s.fail waitText

def signal (w : Waiter) : Monitor :=
  if s.q.blocks w then s.fail signalText
  else
    match s.q.waiter w with
    | none => s
    | some u => { s.threadUnblock u with q := s.q.setWaiter w none }

/-- What the functions do behind their loops. -/
def move (op : Op) : Monitor :=
  let returned := match op with
    | .getc => s.q.buf s.q.tail :: s.returned
    | .putc _ => s.returned
  { s with q := s.q.move op, returned }.signal op.other

/-- `lock_acquire`, without donations. -/
def lockAcquire (op : Op) : Monitor :=
  if s.q.holder = some t then s.fail "!lock_held_by_current_thread (lock)"
  else if s.q.value = 0 then { s with q := { s.q with waiters := t :: s.q.waiters } }.block t
  else { s with q := { s.q with value := s.q.value - 1, holder := some t } }.goto t (.wait op)

/-- `sema_up`: one of the waiters, if there are any, is made ready. -/
def semaUp (wake : ThreadPtr) : Option Monitor :=
  match s.q.waiters with
  | [] => some { s with q := { s.q with value := s.q.value + 1 } }
  | _ :: _ =>
    if wake ∈ s.q.waiters then
      some { s.threadUnblock wake with
        q := { s.q with waiters := s.q.waiters.erase wake, value := s.q.value + 1 } }
    else none

def lockRelease (op : Op) (wake : ThreadPtr) (yields : Bool) : Option Monitor :=
  if s.q.holder = some t then
    let released := { s with q := { s.q with holder := none } }.goto t (.test op)
    (released.semaUp wake).map fun s' => { s' with running := if yields then none else some t }
  else some (s.fail "lock_held_by_current_thread (lock)")

/-- A statement of the thread that runs. -/
def statement (wake : ThreadPtr) (yields : Bool) : Option Monitor :=
  match s.pc t with
  | .outside => none
  | .test op => some (s.goto t (if s.q.blocks op.waiter then .acquire op else .move op))
  | .acquire op => some (s.lockAcquire t op)
  | .wait op => some (s.wait t op)
  | .release op => s.lockRelease t op wake yields
  | .move op => some { (s.goto t .outside).move op with running := none }

end Monitor

inductive IntqEvent where
  | call (t : ThreadPtr) (op : Op)
  | dispatch (t : ThreadPtr)
  | statement (wake : ThreadPtr) (yields : Bool)
  | handler (op : Op)
  deriving DecidableEq

/-- Handlers call `intq_putc` when the queue is not full, `intq_getc` when it is not empty. -/
def Monitor.step (s : Monitor) (e : IntqEvent) : Option Monitor :=
  if s.panic ≠ none then none
  else
    match e with
    | .call t op =>
      if s.running = none ∧ s.pc t = .outside then some
        { s.goto t (.test op) with running := some t } else none
    | .dispatch t =>
      if s.running = none ∧ s.pc t ≠ .outside ∧ s.blocked t = false then some
        { s with running := some t }
      else none
    | .statement wake yields => s.running.bind fun t => s.statement t wake yields
    | .handler op => if s.running = none ∧ s.q.blocks op.waiter = false then some (s.move op)
        else none

/-- After `intq_init`. -/
def Monitor.init (buf : Nat → UInt8) : Monitor := { q := { buf } }

end Pintos.Devices
