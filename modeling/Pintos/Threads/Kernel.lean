import Pintos.Lib.Ordered
import Pintos.Threads.FixedPoint

/-!
# Threads and the scheduler

The state of `threads/thread.c` and `threads/synch.c`, and the functions of
`thread.c`. A `struct thread` is named by the page it lives in, and pages are
handed out in order, so a dead thread's record is never taken for a new one.

Each thread carries the kernel code it still has to run as a stack of
instructions. An instruction is one statement, one turn of a loop, or one
section with interrupts off. Three are coarser, and are not interrupted here
where the source can be: the walk of `donate_priority` (a machine of its own has
its statements), the sort and the removal in `cond_signal`, and the look at the
front of `ready_list` after `sema_up`. An empty stack means the thread is in its
own code, outside these two files.
-/

namespace Pintos.Threads

open Ordered Function

inductive Status where
  | running
  | ready
  | blocked
  | dying
  deriving DecidableEq, Repr

abbrev ThreadPtr := Nat
abbrev LockPtr := Nat
abbrev CondPtr := Nat

/-- A semaphore of its own, the one inside a lock, or the one `cond_wait` keeps
on the stack of the thread that waits. -/
inductive SemaPtr where
  | named (n : Nat)
  | ofLock (l : LockPtr)
  | ofWaiter (t : ThreadPtr)
  deriving DecidableEq, Repr

/-- Why a thread that is not running left the CPU. Interrupts are still off when
it gets the CPU back, until it executes this. -/
inductive Wake where
  | created
  | yielded
  | slept
  | blocked
  | idled
  deriving DecidableEq, Repr

/-- The fields of `create` are the new thread and the priority it was asked for. -/
inductive Creation where
  | allocate
  | store (tid : Int)
  | unblock
  deriving DecidableEq, Repr

inductive Instr where
  | resume (w : Wake)
  | semaDown (s : SemaPtr) (resumed : Bool)
  | semaTryDown (s : SemaPtr)
  | semaUp (s : SemaPtr)
  | checkFront
  | threadYield
  | threadBlock
  | threadUnblock (t : ThreadPtr)
  | timerSleep (ticks : Int)
  | threadSleep (wakeTick : Int)
  | threadExit
  | initThread (priority : Int)
  | create (stage : Creation) (t : ThreadPtr) (priority : Int)
  | createCheck (priority : Int)
  | setBase (priority : Int)
  | updatePriority
  | maxDonation (e : Option ThreadPtr) (max : Int)
  | threadSetNice (nice : Int)
  | lockAcquire (l : LockPtr)
  | setWaiting (l : LockPtr)
  | pushDonation (l : LockPtr)
  | donatePriority
  | clearWaiting
  | setHolder (l : LockPtr)
  | lockTryAcquire (l : LockPtr)
  | lockRelease (l : LockPtr)
  | clearHolder (l : LockPtr)
  | removeDonations (l : LockPtr)
  | removeDonation (l : LockPtr) (e : Option ThreadPtr)
  | condWait (c : CondPtr) (l : LockPtr)
  | condSignal (c : CondPtr) (l : LockPtr) (stray : ThreadPtr → Int)
  | condBroadcast (c : CondPtr) (l : LockPtr) (stray : ThreadPtr → Int)
  | idleStart (started : Nat)
  | idleLoop

structure Thread where
  tid : Int := 0
  status : Status := .blocked
  priority : Int := 0
  basePriority : Int := 0
  wakeTick : Int := 0
  waitingLock : Option LockPtr := none
  donations : List ThreadPtr := []
  nice : Int := 0
  recentCpu : Int := 0
  stack : List Instr := []

/-- A number as an `unsigned int` keeps it. -/
def unsigned (n : Nat) : Nat := n % 2 ^ 32

structure Semaphore where
  value : Nat
  waiters : List ThreadPtr
  deriving DecidableEq, Repr

structure Kernel where
  thread : ThreadPtr → Thread
  /-- Pages handed out for threads so far. -/
  created : Nat
  current : ThreadPtr
  idleThread : Option ThreadPtr
  readyList : List ThreadPtr
  allList : List ThreadPtr
  sleepList : List ThreadPtr
  sema : SemaPtr → Semaphore
  holder : LockPtr → Option ThreadPtr
  condWaiters : CondPtr → List ThreadPtr
  nextTid : Int
  mlfqs : Bool
  loadAvg : Int
  ticks : Int
  /-- `idle_ticks + kernel_ticks + user_ticks`; every tick counts in one of them. -/
  currentTicks : Nat
  threadTicks : Nat

def priMin : Int := 0
def priDefault : Int := 31
def priMax : Int := 63
def timeSlice : Nat := 4
def timerFreq : Nat := 100

/-- The lock `allocate_tid` takes. -/
def tidLock : LockPtr := 0

namespace Kernel

def modify (k : Kernel) (t : ThreadPtr) (f : Thread → Thread) : Kernel :=
  { k with thread := update k.thread t (f (k.thread t)) }

section
variable (k : Kernel) (t u : ThreadPtr) (f : Thread → Thread)

theorem modify_thread : (k.modify t f).thread u = if u = t then f (k.thread t) else k.thread u := by
  simp only [modify, update_apply]

@[simp] theorem modify_created : (k.modify t f).created = k.created := rfl
@[simp] theorem modify_current : (k.modify t f).current = k.current := rfl
@[simp] theorem modify_idleThread : (k.modify t f).idleThread = k.idleThread := rfl
@[simp] theorem modify_readyList : (k.modify t f).readyList = k.readyList := rfl
@[simp] theorem modify_allList : (k.modify t f).allList = k.allList := rfl
@[simp] theorem modify_sleepList : (k.modify t f).sleepList = k.sleepList := rfl
@[simp] theorem modify_sema : (k.modify t f).sema = k.sema := rfl
@[simp] theorem modify_holder : (k.modify t f).holder = k.holder := rfl
@[simp] theorem modify_mlfqs : (k.modify t f).mlfqs = k.mlfqs := rfl

/-! A field of every thread after `modify`: unchanged when `f` leaves it alone
(the `_keep` lemmas, tried first), else decided by which thread is asked for. -/

@[simp] theorem modify_status : ((k.modify t f).thread u).status =
    if u = t then (f (k.thread t)).status else (k.thread u).status := by
  rw [modify_thread]; split <;> rfl

@[simp] theorem modify_priority : ((k.modify t f).thread u).priority =
    if u = t then (f (k.thread t)).priority else (k.thread u).priority := by
  rw [modify_thread]; split <;> rfl

@[simp] theorem modify_basePriority : ((k.modify t f).thread u).basePriority =
    if u = t then (f (k.thread t)).basePriority else (k.thread u).basePriority := by
  rw [modify_thread]; split <;> rfl

@[simp] theorem modify_waitingLock : ((k.modify t f).thread u).waitingLock =
    if u = t then (f (k.thread t)).waitingLock else (k.thread u).waitingLock := by
  rw [modify_thread]; split <;> rfl

@[simp] theorem modify_donations : ((k.modify t f).thread u).donations =
    if u = t then (f (k.thread t)).donations else (k.thread u).donations := by
  rw [modify_thread]; split <;> rfl

@[simp] theorem modify_stack : ((k.modify t f).thread u).stack =
    if u = t then (f (k.thread t)).stack else (k.thread u).stack := by
  rw [modify_thread]; split <;> rfl

variable {f}

@[simp high] theorem modify_status_keep (eq : ∀ th, (f th).status = th.status) :
    ((k.modify t f).thread u).status = (k.thread u).status := by
  rw [modify_status]; split <;> simp_all

@[simp high] theorem modify_priority_keep (eq : ∀ th, (f th).priority = th.priority) :
    ((k.modify t f).thread u).priority = (k.thread u).priority := by
  rw [modify_priority]; split <;> simp_all

@[simp high] theorem modify_basePriority_keep (eq : ∀ th, (f th).basePriority = th.basePriority) :
    ((k.modify t f).thread u).basePriority = (k.thread u).basePriority := by
  rw [modify_basePriority]; split <;> simp_all

@[simp high] theorem modify_waitingLock_keep (eq : ∀ th, (f th).waitingLock = th.waitingLock) :
    ((k.modify t f).thread u).waitingLock = (k.thread u).waitingLock := by
  rw [modify_waitingLock]; split <;> simp_all

@[simp high] theorem modify_donations_keep (eq : ∀ th, (f th).donations = th.donations) :
    ((k.modify t f).thread u).donations = (k.thread u).donations := by
  rw [modify_donations]; split <;> simp_all

@[simp high] theorem modify_wakeTick_keep (eq : ∀ th, (f th).wakeTick = th.wakeTick) :
    ((k.modify t f).thread u).wakeTick = (k.thread u).wakeTick := by
  rw [modify_thread]; split <;> simp_all

@[simp high] theorem modify_stack_keep (eq : ∀ th, (f th).stack = th.stack) :
    ((k.modify t f).thread u).stack = (k.thread u).stack := by
  rw [modify_stack]; split <;> simp_all

end

@[simp] def setStatus (k : Kernel) (t : ThreadPtr) (s : Status) : Kernel :=
  k.modify t fun th => { th with status := s }

@[simp] def setStack (k : Kernel) (t : ThreadPtr) (is : List Instr) : Kernel :=
  k.modify t fun th => { th with stack := is }

@[simp] def push (k : Kernel) (is : List Instr) : Kernel :=
  k.setStack k.current (is ++ (k.thread k.current).stack)

theorem push_nil (k : Kernel) : k.push [] = k :=
  congrArg (fun thread => { k with thread }) (update_eq_self k.current k.thread)

@[simps] def setSema (k : Kernel) (s : SemaPtr) (v : Semaphore) : Kernel :=
  { k with sema := update k.sema s v }

@[simps] def setHolder (k : Kernel) (l : LockPtr) (h : Option ThreadPtr) : Kernel :=
  { k with holder := update k.holder l h }

def threadPriorityGreater (k : Kernel) (a b : ThreadPtr) : Prop :=
  (k.thread a).priority > (k.thread b).priority

instance (k : Kernel) : DecidableRel k.threadPriorityGreater :=
  fun _ _ => inferInstanceAs (Decidable (_ > _))

@[simp] theorem modify_threadPriorityGreater (k : Kernel) (t : ThreadPtr) {f : Thread → Thread}
    (eq : ∀ th, (f th).priority = th.priority) :
    (k.modify t f).threadPriorityGreater = k.threadPriorityGreater := by
  funext a b
  simp only [threadPriorityGreater, modify_priority_keep k t _ eq]

def threadWakeTickLess (k : Kernel) (a b : ThreadPtr) : Prop :=
  (k.thread a).wakeTick < (k.thread b).wakeTick

instance (k : Kernel) : DecidableRel k.threadWakeTickLess :=
  fun _ _ => inferInstanceAs (Decidable (_ < _))

@[simps] def readyInsert (k : Kernel) (t : ThreadPtr) : Kernel :=
  { k with readyList := insertOrdered k.threadPriorityGreater t k.readyList }

/-- Nothing when the assertion on the status fails and the kernel panics. -/
def threadUnblock (k : Kernel) (t : ThreadPtr) : Option Kernel :=
  if (k.thread t).status = .blocked then some ((k.readyInsert t).setStatus t .ready) else none

theorem threadUnblock_eq {k k' : Kernel} {t : ThreadPtr} (h : k.threadUnblock t = some k') :
    (k.thread t).status = .blocked ∧ k' = (k.readyInsert t).setStatus t .ready := by
  unfold threadUnblock at h
  split_ifs at h with blocked
  exact ⟨blocked, (Option.some.inj h).symm⟩

def nextThreadToRun (k : Kernel) : Option (ThreadPtr × List ThreadPtr) :=
  match k.readyList with
  | [] => k.idleThread.map fun t => (t, [])
  | t :: rest => some (t, rest)

/-- `thread_schedule_tail`, in the thread that has just got the CPU. -/
def switchTo (k : Kernel) (next : ThreadPtr) (rest : List ThreadPtr) : Kernel :=
  { k.setStatus next .running with readyList := rest, current := next, threadTicks := 0 }

/-- Nothing when there is no thread to run and `is_thread (next)` fails. -/
def schedule (k : Kernel) : Option Kernel :=
  k.nextThreadToRun.map fun p => k.switchTo p.1 p.2

theorem schedule_eq {k k' : Kernel} (h : k.schedule = some k') :
    ∃ next rest, k.nextThreadToRun = some (next, rest) ∧ k' = k.switchTo next rest := by
  obtain ⟨⟨next, rest⟩, eq, rfl⟩ := Option.map_eq_some_iff.mp h
  exact ⟨next, rest, eq, rfl⟩

def threadBlock (k : Kernel) : Option Kernel := (k.setStatus k.current .blocked).schedule

def threadYield (k : Kernel) : Option Kernel :=
  let k := k.push [.resume .yielded]
  let k := if k.idleThread = some k.current then k else k.readyInsert k.current
  (k.setStatus k.current .ready).schedule

def threadExit (k : Kernel) : Option Kernel :=
  ({ k with allList := k.allList.erase k.current }.setStatus k.current .dying).schedule

def threadSleep (k : Kernel) (wakeTick : Int) : Option Kernel :=
  let k := (k.push [.resume .slept]).modify k.current fun th => { th with wakeTick }
  { k with sleepList := insertOrdered k.threadWakeTickLess k.current k.sleepList }.threadBlock

/-- The loop of `thread_wake` over the part of `sleep_list` it has not passed. -/
def wakeLoop (now : Int) : List ThreadPtr → Kernel → Option Kernel
  | [], k => some k
  | t :: rest, k =>
    if (k.thread t).wakeTick > now then some k
    else ({ k with sleepList := rest }.threadUnblock t).bind (wakeLoop now rest)

def threadWake (k : Kernel) (now : Int) : Option Kernel := wakeLoop now k.sleepList k

/-- The record `init_thread` fills in, ready to start in `kernel_thread`. -/
def initThread (priority : Int) (code : List Instr) : Thread :=
  { priority, basePriority := priority, stack := .resume .created :: code }

def threadForeach (k : Kernel) (f : Kernel → ThreadPtr → Kernel) : Kernel := k.allList.foldl f k

def mlfqsPriority (th : Thread) : Int :=
  let p := priMax - fpToIntNear (fpDivInt th.recentCpu 4) - th.nice * 2
  let p := if p < priMin then priMin else p
  if p > priMax then priMax else p

def mlfqsCalcPriority (k : Kernel) (t : ThreadPtr) : Kernel :=
  if k.idleThread = some t then k
  else k.modify t fun th => { th with priority := mlfqsPriority th }

def mlfqsCalcRecentCpu (k : Kernel) (t : ThreadPtr) : Kernel :=
  if k.idleThread = some t then k
  else
    let twiceLoad := int32 (fpMulInt k.loadAvg 2)
    let coeff := int32 (fpDiv twiceLoad (fpAddInt twiceLoad 1))
    k.modify t fun th =>
      { th with recentCpu := int32 (fpAddInt (fpMul coeff th.recentCpu) th.nice) }

def mlfqsUpdateLoadAvgAndRecentCpu (k : Kernel) : Kernel :=
  let readyThreads : Int :=
    k.readyList.length + if k.idleThread = some k.current then 0 else 1
  let loadAvg := int32 (fpAdd (fpMul (fpDiv (fpFromInt 59) (fpFromInt 60)) k.loadAvg)
    (fpMulInt (fpDiv (fpFromInt 1) (fpFromInt 60)) readyThreads))
  { k with loadAvg := if loadAvg < 0 then 0 else loadAvg }.threadForeach mlfqsCalcRecentCpu

def mlfqsUpdateAllPriorities (k : Kernel) : Kernel :=
  let k := k.threadForeach mlfqsCalcPriority
  { k with readyList := stableSort k.threadPriorityGreater k.readyList }

/-- The part of `thread_tick` that only MLFQS has. -/
def mlfqsTick (k : Kernel) : Kernel :=
  let k := if k.idleThread = some k.current then k
    else k.modify k.current fun th => { th with recentCpu := int32 (fpAddInt th.recentCpu 1) }
  if k.currentTicks % timerFreq = 0 then
    k.mlfqsUpdateLoadAvgAndRecentCpu.mlfqsUpdateAllPriorities
  else if k.currentTicks % timeSlice = 0 then k.mlfqsUpdateAllPriorities
  else k

/-- The counters of a tick, and MLFQS's work. -/
def threadTick (k : Kernel) : Kernel :=
  let k := { k with currentTicks := k.currentTicks + 1, threadTicks := k.threadTicks + 1 }
  if k.mlfqs then k.mlfqsTick else k

/-- `timer_interrupt` up to the return to the interrupted thread, and whether
`thread_tick` asked for a yield there. -/
def timerInterrupt (k : Kernel) : Option (Kernel × Bool) :=
  let k := { k with ticks := k.ticks + 1 }.threadTick
  (k.threadWake k.ticks).map fun k' => (k', decide (timeSlice ≤ k.threadTicks))

/-- The reading of the front of `ready_list` at the end of `sema_up` and of
`thread_set_priority`. -/
def frontIsGreater (k : Kernel) : Bool :=
  match k.readyList with
  | [] => false
  | front :: _ => decide ((k.thread front).priority > (k.thread k.current).priority)

end Kernel

end Pintos.Threads
