import Pintos.Threads.Kernel

/-!
# Semaphores, locks and priority donation

The functions of `threads/synch.c`, cut where the source can be interrupted or
can lose the CPU. What a lock operation is when nothing interrupts it is put
together from these pieces in `Pintos.Threads.Atomic`; how they interleave under
preemption is `Pintos.Threads.Preemption`.
-/

namespace Pintos.Threads

open Ordered

/-- What follows a successful `sema_down` in its caller: `lock_acquire` clears
`waiting_lock` and takes the lock. -/
def afterDown : SemaPtr → List Instr
  | .ofLock l => [.clearWaiting, .setHolder l]
  | _ => []

def afterTryDown : SemaPtr → List Instr
  | .ofLock l => [.setHolder l]
  | _ => []

/-- `list_next` on a list of distinct elements; nothing stands for the end. -/
def listNext (l : List ThreadPtr) (e : ThreadPtr) : Option ThreadPtr :=
  (l.dropWhile (· ≠ e)).tail.head?

namespace Kernel

/-- One turn of the loop of `sema_down`. A thread that finds the value 0 queues,
blocks, and looks again when it is woken. -/
def semaDown (k : Kernel) (s : SemaPtr) : Option Kernel :=
  let v := k.sema s
  if v.value = 0 then
    let k := k.push [.semaDown s true]
    let waiters := insertOrdered k.threadPriorityGreater k.current v.waiters
    (k.setSema s { v with waiters }).threadBlock
  else some ((k.setSema s { v with value := v.value - 1 }).push (afterDown s))

def semaTryDown (k : Kernel) (s : SemaPtr) : Kernel :=
  let v := k.sema s
  if v.value > 0 then (k.setSema s { v with value := v.value - 1 }).push (afterTryDown s) else k

/-- On a semaphore that is not a lock's, nothing follows in the caller. -/
theorem semaTryDown_named (k : Kernel) (n : Nat) : ∃ value, k.semaTryDown (.named n) =
    k.setSema (.named n) { k.sema (.named n) with value } := by
  unfold semaTryDown
  dsimp only
  split
  · exact ⟨_, push_nil _⟩
  · exact ⟨(k.sema (.named n)).value, by simp [setSema]⟩

/-- `sema_up` up to the point where it turns interrupts back on. -/
def semaUp (k : Kernel) (s : SemaPtr) : Option Kernel :=
  let v := k.sema s
  match stableSort k.threadPriorityGreater v.waiters with
  | [] => some (k.setSema s { v with value := unsigned (v.value + 1) })
  | t :: rest => (k.setSema s { value := unsigned (v.value + 1), waiters := rest }).threadUnblock t

def checkFront (k : Kernel) : Kernel := if k.frontIsGreater then k.push [.threadYield] else k

/-- Raising the priority of a holder, which moves it if it is in `ready_list`. -/
def raise (k : Kernel) (h : ThreadPtr) (priority : Int) : Kernel :=
  let k := k.modify h fun th => { th with priority }
  if (k.thread h).status = .ready then
    { k with readyList := insertOrdered k.threadPriorityGreater h (k.readyList.erase h) }
  else k

section
variable (k : Kernel) (h t : ThreadPtr) (p : Int)

theorem raise_eq : k.raise h p = { k.modify h (fun th => { th with priority := p }) with
    readyList := (k.raise h p).readyList } := by
  simp only [raise]; split <;> rfl

@[simp] theorem raise_current : (k.raise h p).current = k.current := by rw [raise_eq]; rfl
@[simp] theorem raise_created : (k.raise h p).created = k.created := by rw [raise_eq]; rfl
@[simp] theorem raise_idleThread : (k.raise h p).idleThread = k.idleThread := by rw [raise_eq]; rfl
@[simp] theorem raise_allList : (k.raise h p).allList = k.allList := by rw [raise_eq]; rfl
@[simp] theorem raise_sleepList : (k.raise h p).sleepList = k.sleepList := by rw [raise_eq]; rfl
@[simp] theorem raise_sema : (k.raise h p).sema = k.sema := by rw [raise_eq]; rfl
@[simp] theorem raise_holder : (k.raise h p).holder = k.holder := by rw [raise_eq]; rfl
@[simp] theorem raise_condWaiters : (k.raise h p).condWaiters = k.condWaiters := by
  rw [raise_eq]; rfl
@[simp] theorem raise_mlfqs : (k.raise h p).mlfqs = k.mlfqs := by rw [raise_eq]; rfl

@[simp] theorem raise_status : ((k.raise h p).thread t).status = (k.thread t).status := by
  rw [raise_eq]; simp

@[simp] theorem raise_stack : ((k.raise h p).thread t).stack = (k.thread t).stack := by
  rw [raise_eq]; simp

@[simp] theorem raise_basePriority :
    ((k.raise h p).thread t).basePriority = (k.thread t).basePriority := by rw [raise_eq]; simp

@[simp] theorem raise_waitingLock :
    ((k.raise h p).thread t).waitingLock = (k.thread t).waitingLock := by rw [raise_eq]; simp

@[simp] theorem raise_donations : ((k.raise h p).thread t).donations = (k.thread t).donations := by
  rw [raise_eq]; simp

@[simp] theorem raise_priority : ((k.raise h p).thread t).priority =
    if t = h then p else (k.thread t).priority := by rw [raise_eq]; simp

theorem raise_readyList : (k.raise h p).readyList =
    if (k.thread h).status = .ready then
      insertOrdered (k.raise h p).threadPriorityGreater h (k.readyList.erase h)
    else k.readyList := by
  by_cases ready : (k.thread h).status = .ready
  · simp [raise, ready]; rfl
  · simp [raise, ready]

end

/-- One turn of the loop of `donate_priority`: the holder raised, who is the next
to donate. Nothing when the loop ends here. -/
def donateStep (k : Kernel) (t : ThreadPtr) : Option (Kernel × ThreadPtr) :=
  match (k.thread t).waitingLock with
  | none => none
  | some l =>
    match k.holder l with
    | none => none
    | some h =>
      if (k.thread h).priority ≥ (k.thread t).priority then none
      else some (k.raise h (k.thread t).priority, h)

theorem donateStep_eq {k k' : Kernel} {t h : ThreadPtr} (step : k.donateStep t = some (k', h)) :
    ∃ l, (k.thread t).waitingLock = some l ∧ k.holder l = some h ∧
      (k.thread h).priority < (k.thread t).priority ∧ k' = k.raise h (k.thread t).priority := by
  unfold donateStep at step
  split at step
  · cases step
  · rename_i l waiting
    split at step
    · cases step
    · rename_i h' held
      split_ifs at step with he
      cases step
      exact ⟨l, waiting, held, Int.not_le.mp he, rfl⟩

def donateLoop : Nat → Kernel → ThreadPtr → Kernel × ThreadPtr
  | 0, k, t => (k, t)
  | depth + 1, k, t =>
    match k.donateStep t with
    | none => (k, t)
    | some (k', h) => donateLoop depth k' h

/-- The depth at which `donate_priority` stops. -/
def donationDepth : Nat := 8

def donatePriority (k : Kernel) (t : ThreadPtr) : Kernel := (donateLoop donationDepth k t).1

def setWaiting (k : Kernel) (t : ThreadPtr) (l : Option LockPtr) : Kernel :=
  k.modify t fun th => { th with waitingLock := l }

/-- `list_push_back (&lock->holder->donations, ..)`; nothing when the holder is null. -/
def pushDonation (k : Kernel) (t : ThreadPtr) (l : LockPtr) : Option Kernel :=
  (k.holder l).map fun h => k.modify h fun th => { th with donations := th.donations ++ [t] }

def removeDonationsForLock (k : Kernel) (t : ThreadPtr) (l : LockPtr) : Kernel :=
  k.modify t fun th =>
    { th with donations := th.donations.filter fun d => (k.thread d).waitingLock ≠ some l }

/-- The base priority and the donations of a thread, as both
`update_priority_after_release` and `thread_get_effective_priority` compute it. -/
def effectivePriority (k : Kernel) (t : ThreadPtr) : Int :=
  (k.thread t).donations.foldl (fun m d => max m (k.thread d).priority) (k.thread t).basePriority

def updatePriorityAfterRelease (k : Kernel) (t : ThreadPtr) : Kernel :=
  k.modify t fun th => { th with priority := k.effectivePriority t }

/-- `cond_priority_greater` reads the first waiter of each semaphore. A thread
that has not reached its `sema_down` is not there yet, and the read finds
whatever `stray` says the stack holds. -/
def condPriority (k : Kernel) (stray : ThreadPtr → Int) (e : ThreadPtr) : Int :=
  match (k.sema (.ofWaiter e)).waiters with
  | [] => stray e
  | t :: _ => (k.thread t).priority

def condSort (k : Kernel) (stray : ThreadPtr → Int) (l : List ThreadPtr) : List ThreadPtr :=
  stableSort (fun a b => k.condPriority stray a > k.condPriority stray b) l

end Kernel

end Pintos.Threads
