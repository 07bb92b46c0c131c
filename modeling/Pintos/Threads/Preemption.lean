import Pintos.Lib.Machine
import Pintos.Threads.Synch

/-!
# Threads under preemption

The machine in which any number of threads call the functions of `thread.c` and
`synch.c`, and `timer_sleep` of `devices/timer.c`. An event is a call from a
thread's own code, the next instruction of the running thread, or an interrupt.
Interrupts come between any two instructions unless interrupts are off. A step that
would fail an assertion or follow a null pointer has no successor: the kernel has
stopped.
-/

namespace Pintos.Threads

open Ordered

namespace Kernel

/-- A thread that left the CPU in a bare `thread_block` and waits for the
`thread_unblock` of whoever keeps a pointer to it. The callers of
`thread_unblock` outside these two files (`devices/intq.c`) wake such threads
only, and look and wake with interrupts off. -/
def parked (k : Kernel) (t : ThreadPtr) : Bool :=
  decide ((k.thread t).status = .blocked) &&
    match (k.thread t).stack with
    | .resume .blocked :: _ => true
    | _ => false

/-- Run one instruction, already taken off the stack of the running thread. -/
def execInstr (k : Kernel) : Instr → Option Kernel
  | .resume _ => some k
  | .semaDown s _ => k.semaDown s
  | .semaTryDown s => some (k.semaTryDown s)
  | .semaUp s => (k.semaUp s).map (·.push [.checkFront])
  | .checkFront => some k.checkFront
  | .threadYield => k.threadYield
  | .threadBlock => (k.push [.resume .blocked]).threadBlock
  | .threadUnblock t => if k.parked t then k.threadUnblock t else none
  | .timerSleep n => some (if n ≤ 0 then k else k.push [.threadSleep (k.ticks + n)])
  | .threadSleep wakeTick => k.threadSleep wakeTick
  | .threadExit => k.threadExit
  | .initThread p =>
    if priMin ≤ p ∧ p ≤ priMax then
      let t := k.created
      let k := { k.modify t (fun _ => initThread p []) with
        created := t + 1, allList := k.allList ++ [t] }
      some (k.push [.lockAcquire tidLock, .create .allocate t p])
    else none
  | .create .allocate t p =>
    some ({ k with nextTid := k.nextTid + 1 }.push
      [.lockRelease tidLock, .create (.store k.nextTid) t p])
  | .create (.store tid) t p =>
    some ((k.modify t fun th => { th with tid }).push [.create .unblock t p])
  | .create .unblock t p => (k.threadUnblock t).map (·.push [.createCheck p])
  | .createCheck p =>
    some (if (k.thread k.current).priority < p then k.push [.threadYield] else k)
  | .setBase p =>
    some (if k.mlfqs then k
      else (k.modify k.current fun th => { th with basePriority := p }).push
        [.updatePriority, .checkFront])
  | .updatePriority =>
    let th := k.thread k.current
    some (k.push [.maxDonation th.donations.head? th.basePriority])
  | .maxDonation none m => some (k.modify k.current fun th => { th with priority := m })
  | .maxDonation (some d) m =>
    some (k.push [.maxDonation (listNext (k.thread k.current).donations d)
      (max m (k.thread d).priority)])
  | .threadSetNice n =>
    some ((k.modify k.current fun th =>
      { th with nice := n }).mlfqsCalcPriority k.current).checkFront
  | .lockAcquire l =>
    if k.holder l = some k.current then none
    else if !k.mlfqs ∧ k.holder l ≠ none then
      some (k.push [.setWaiting l, .pushDonation l, .donatePriority, .semaDown (.ofLock l) false])
    else some (k.push [.semaDown (.ofLock l) false])
  | .setWaiting l => some (k.setWaiting k.current (some l))
  | .pushDonation l => k.pushDonation k.current l
  | .donatePriority => some (k.donatePriority k.current)
  | .clearWaiting => some (k.setWaiting k.current none)
  | .setHolder l => some (k.setHolder l (some k.current))
  | .lockTryAcquire l =>
    if k.holder l = some k.current then none else some (k.push [.semaTryDown (.ofLock l)])
  | .lockRelease l =>
    if k.holder l = some k.current then
      some (k.push (.clearHolder l ::
        ((if k.mlfqs then [] else [.removeDonations l, .updatePriority]) ++ [.semaUp (.ofLock l)])))
    else none
  | .clearHolder l => some (k.setHolder l none)
  | .removeDonations l =>
    some (k.push [.removeDonation l (k.thread k.current).donations.head?])
  | .removeDonation _ none => some k
  | .removeDonation l (some d) =>
    let next := listNext (k.thread k.current).donations d
    let k := if (k.thread d).waitingLock = some l then
      k.modify k.current fun th => { th with donations := th.donations.erase d } else k
    some (k.push [.removeDonation l next])
  | .condWait c l =>
    if k.holder l = some k.current then
      let k := k.setSema (.ofWaiter k.current) ⟨0, []⟩
      let waiters := k.condWaiters c ++ [k.current]
      let k := { k with condWaiters := Function.update k.condWaiters c waiters }
      some (k.push [.lockRelease l, .semaDown (.ofWaiter k.current) false, .lockAcquire l])
    else none
  | .condSignal c l stray =>
    if k.holder l = some k.current then
      match k.condSort stray (k.condWaiters c) with
      | [] => some k
      | e :: rest =>
        let k := { k with condWaiters := Function.update k.condWaiters c rest }
        some (k.push [.semaUp (.ofWaiter e)])
    else none
  | .condBroadcast c l stray =>
    some (if k.condWaiters c = [] then k
      else k.push [.condSignal c l stray, .condBroadcast c l stray])
  | .idleStart started =>
    some ({ k with idleThread := some k.current }.push [.semaUp (.named started), .idleLoop])
  | .idleLoop => (k.push [.resume .idled, .idleLoop]).threadBlock

/-- The next instruction of the running thread. -/
def exec (k : Kernel) : Option Kernel :=
  match (k.thread k.current).stack with
  | [] => none
  | i :: rest => (k.setStack k.current rest).execInstr i

/-- The running thread is to do `i`, and then `rest`. -/
abbrev Next (k : Kernel) (i : Instr) (rest : List Instr) : Prop :=
  (k.thread k.current).stack = i :: rest

/-- It does `i`. -/
abbrev Does (k : Kernel) (i : Instr) (rest : List Instr) (k' : Kernel) : Prop :=
  (k.setStack k.current rest).execInstr i = some k'

end Kernel

/-- Calls a thread makes from its own code, where interrupts are on. The flag of
`threadCreate` says whether there was a page for the thread. -/
inductive Call where
  | threadCreate (priority : Int) (page : Bool)
  | threadBlock
  | threadUnblock (t : ThreadPtr)
  | threadYield
  | threadExit
  | timerSleep (ticks : Int)
  | threadSleep (wakeTick : Int)
  | threadSetPriority (priority : Int)
  | threadSetNice (nice : Int)
  | semaDown (n : Nat)
  | semaTryDown (n : Nat)
  | semaUp (n : Nat)
  | lockAcquire (l : LockPtr)
  | lockTryAcquire (l : LockPtr)
  | lockRelease (l : LockPtr)
  | condWait (c : CondPtr) (l : LockPtr)
  | condSignal (c : CondPtr) (l : LockPtr) (stray : ThreadPtr → Int)
  | condBroadcast (c : CondPtr) (l : LockPtr) (stray : ThreadPtr → Int)

def Call.code : Call → List Instr
  | .threadCreate p page => if page then [.initThread p] else []
  | .threadBlock => [.threadBlock]
  | .threadUnblock t => [.threadUnblock t]
  | .threadYield => [.threadYield]
  | .threadExit => [.threadExit]
  | .timerSleep n => [.timerSleep n]
  | .threadSleep w => [.threadSleep w]
  | .threadSetPriority p => [.setBase p]
  | .threadSetNice n => [.threadSetNice n]
  | .semaDown n => [.semaDown (.named n) false]
  | .semaTryDown n => [.semaTryDown (.named n)]
  | .semaUp n => [.semaUp (.named n)]
  | .lockAcquire l => [.lockAcquire l]
  | .lockTryAcquire l => [.lockTryAcquire l]
  | .lockRelease l => [.lockRelease l]
  | .condWait c l => [.condWait c l]
  | .condSignal c l stray => [.condSignal c l stray]
  | .condBroadcast c l stray => [.condBroadcast c l stray]

/-- Interrupt handlers run with interrupts off and use these functions of the two files. -/
inductive Interrupt where
  | timer
  | semaTryDown (n : Nat)
  | semaUp (n : Nat)
  | threadUnblock (t : ThreadPtr)

inductive Event where
  | call (c : Call)
  | exec
  | interrupt (i : Interrupt)

def Instr.interruptsOff : Instr → Bool
  | .resume _ => true
  | .semaDown _ resumed => resumed
  | _ => false

namespace Kernel

def interruptsOn (k : Kernel) : Bool :=
  match (k.thread k.current).stack with
  | [] => true
  | i :: _ => !i.interruptsOff

def interrupt (k : Kernel) : Interrupt → Option Kernel
  | .timer =>
    match k.timerInterrupt with
    | none => none
    | some (k', yieldOnReturn) => if yieldOnReturn then k'.threadYield else some k'
  | .semaTryDown n => some (k.semaTryDown (.named n))
  | .semaUp n => k.semaUp (.named n)
  | .threadUnblock t => if k.parked t then k.threadUnblock t else none

def inThreadCode (k : Kernel) : Bool := (k.thread k.current).stack.isEmpty

theorem stack_eq_nil {k : Kernel} (free : k.inThreadCode = true) :
    (k.thread k.current).stack = [] := by
  simpa [inThreadCode] using free

def step (k : Kernel) : Event → Option Kernel
  | .call c => if k.inThreadCode then some (k.push c.code) else none
  | .exec => k.exec
  | .interrupt i => if k.interruptsOn then k.interrupt i else none

/-- The semaphore `thread_start` waits on until the idle thread runs. -/
def idleStarted : Nat := 0

def mainThread : ThreadPtr := 0
def bootIdle : ThreadPtr := 1

/-- `thread_start` has created the idle thread and is about to turn interrupts on.
The other semaphores have the values their owners gave them. -/
def boot (mlfqs : Bool) (value : Nat → Nat) : Kernel where
  thread t :=
    if t = mainThread then
      { tid := 1, status := .running, priority := priDefault, basePriority := priDefault
        stack := [.semaDown (.named idleStarted) false] }
    else if t = bootIdle then
      { initThread priMin [.idleStart idleStarted] with tid := 2, status := .ready }
    else {}
  created := 2
  current := mainThread
  idleThread := none
  readyList := [bootIdle]
  allList := [mainThread, bootIdle]
  sleepList := []
  sema s := match s with
    | .named 0 => ⟨0, []⟩
    | .named n => ⟨unsigned (value n), []⟩
    | .ofLock _ => ⟨1, []⟩
    | .ofWaiter _ => ⟨0, []⟩
  holder _ := none
  condWaiters _ := []
  nextTid := 3
  mlfqs
  loadAvg := 0
  ticks := 0
  currentTicks := 0
  threadTicks := 0

end Kernel

end Pintos.Threads
