import Pintos.Lib.Donation
import Pintos.Threads.Atomic

/-!
# Priority donation by the kernel

The lock operations of `Pintos.Threads.Atomic` are the operations of
`Pintos.Lib.Donation` on the priorities, `waiting_lock` fields, holders and
`donations` lists of the kernel. Whatever else they do, and whatever the
scheduler does, leaves these alone.
-/

namespace Pintos.Threads

open Donation List Option

namespace Kernel

def donation (k : Kernel) : Donation.State ThreadPtr LockPtr Int where
  priority t := (k.thread t).priority
  base t := (k.thread t).basePriority
  waiting t := (k.thread t).waitingLock
  holder := k.holder
  donors t := (k.thread t).donations

/-! ### What leaves donations alone -/

@[simp] theorem donation_modify (k : Kernel) (t : ThreadPtr) {f : Thread → Thread}
    (priority : ∀ th, (f th).priority = th.priority)
    (base : ∀ th, (f th).basePriority = th.basePriority)
    (waiting : ∀ th, (f th).waitingLock = th.waitingLock)
    (donations : ∀ th, (f th).donations = th.donations) : (k.modify t f).donation = k.donation := by
  simp only [donation, modify_priority_keep k t _ priority, modify_basePriority_keep k t _ base,
    modify_waitingLock_keep k t _ waiting, modify_donations_keep k t _ donations, modify_holder]

@[simp] theorem donation_readyInsert (k : Kernel) (t : ThreadPtr) :
    (k.readyInsert t).donation = k.donation := rfl

@[simp] theorem donation_setSema (k : Kernel) (s : SemaPtr) (v : Semaphore) :
    (k.setSema s v).donation = k.donation := rfl

theorem donation_schedule {k k' : Kernel} (h : k.schedule = some k') :
    k'.donation = k.donation := by
  obtain ⟨next, rest, -, rfl⟩ := schedule_eq h
  show (k.setStatus next .running).donation = k.donation
  simp

variable {t w : ThreadPtr} {called : LockPtr → List ThreadPtr}

theorem donation_threadUnblock {k k' : Kernel} (h : k.threadUnblock t = some k') :
    k'.donation = k.donation := by
  obtain ⟨-, rfl⟩ := threadUnblock_eq h
  simp

theorem donation_semaUp {k k' : Kernel} {s : SemaPtr} (h : k.semaUp s = some k') :
    k'.donation = k.donation := by
  simp only [semaUp] at h
  split at h
  · cases h
    rfl
  · rw [donation_threadUnblock h, donation_setSema]

theorem donation_threadYield {k k' : Kernel} (h : k.threadYield = some k') :
    k'.donation = k.donation := by
  simp only [threadYield] at h
  split_ifs at h <;> rw [donation_schedule h] <;> simp

theorem donation_threadBlock {k k' : Kernel} (h : k.threadBlock = some k') :
    k'.donation = k.donation := by
  rw [donation_schedule h]
  simp

theorem donateLoop_waitingLock (depth : Nat) (k : Kernel) (u t : ThreadPtr) :
    ((donateLoop depth k u).1.thread t).waitingLock = (k.thread t).waitingLock := by
  induction depth generalizing k u with
  | zero => rfl
  | succ depth ih =>
    unfold donateLoop
    split
    · rfl
    · rename_i k1 holder step
      obtain ⟨_, _, _, _, rfl⟩ := donateStep_eq step
      rw [ih, raise_waitingLock]

/-! ### The operations on donations -/

theorem donation_raise (k : Kernel) (h : ThreadPtr) (p : Int) :
    (k.raise h p).donation = k.donation.raise h p := by
  simp only [donation, State.raise, raise_priority, raise_basePriority, raise_waitingLock,
    raise_donations, raise_holder]
  congr
  funext t
  simp only [Function.update_apply]

theorem donation_donateStep (k : Kernel) (t : ThreadPtr) :
    k.donation.pass t = (k.donateStep t).map fun p => (p.1.donation, p.2) := by
  unfold State.pass donateStep
  rw [show k.donation.waiting t = (k.thread t).waitingLock from rfl]
  cases (k.thread t).waitingLock with
  | none => rfl
  | some l =>
    simp only [show k.donation.holder l = k.holder l from rfl]
    cases k.holder l with
    | none => rfl
    | some h =>
      simp only [show ∀ u, k.donation.priority u = (k.thread u).priority from fun _ => rfl,
        ← donation_raise]
      split_ifs <;> rfl

theorem donation_donateLoop (depth : Nat) (k : Kernel) (t : ThreadPtr) :
    k.donation.walk depth t = ((donateLoop depth k t).1.donation, (donateLoop depth k t).2) := by
  induction depth generalizing k t with
  | zero => rfl
  | succ depth ih =>
    unfold State.walk donateLoop
    rw [donation_donateStep]
    cases k.donateStep t with
    | none => rfl
    | some p => exact ih p.1 p.2

theorem donation_register {k k' : Kernel} {l : LockPtr} (registered : k.register l = some k') :
    ∃ h, k.holder l = some h ∧ k'.donation = k.donation.register k.current l h := by
  obtain ⟨h, holds, rfl⟩ := map_eq_some_iff.mp registered
  refine ⟨h, holds, ?_⟩
  simp only [donation, State.register, setWaiting]
  congr 1 <;> funext t <;> simp [Function.update_apply]

theorem donation_take (k : Kernel) (l : LockPtr) :
    ((k.setWaiting k.current none).setHolder l (some k.current)).donation =
      k.donation.take k.current l := by
  simp only [donation, State.take, setWaiting, setHolder]
  congr 1 <;> funext t <;> simp [Function.update_apply]

theorem donation_updatePriority (k : Kernel) (t : ThreadPtr) :
    (k.updatePriorityAfterRelease t).donation = k.donation.refresh t := by
  simp only [donation, State.refresh, State.raise, updatePriorityAfterRelease]
  congr 1 <;> funext u <;> simp [Function.update_apply]
  rfl

theorem donation_release (k : Kernel) (t : ThreadPtr) (l : LockPtr) :
    (((k.setHolder l none).removeDonationsForLock t l).updatePriorityAfterRelease t).donation =
      k.donation.give t l := by
  rw [donation_updatePriority, State.give]
  congr 1
  simp only [donation, State.drop, removeDonationsForLock, setHolder]
  congr 1 <;> funext u <;> simp [Function.update_apply]
  rfl

theorem donation_setBase (k : Kernel) (t : ThreadPtr) (p : Int) :
    ((k.modify t fun th => { th with basePriority := p }).updatePriorityAfterRelease t).donation =
      k.donation.setBase t p := by
  rw [donation_updatePriority, State.setBase]
  congr 1
  simp only [donation, State.rebase]
  congr 1 <;> funext u <;> simp [Function.update_apply]

/-! ### Between the operations -/

/-- The code a thread can have left while no operation is running in it, and
the lock it then waits for. -/
inductive AtRest : List Instr → Option LockPtr → Prop where
  | idle : AtRest [] none
  | off (w : Wake) : AtRest [.resume w] none
  | idleLoop : AtRest [.idleLoop] none
  | idleOff (w : Wake) : AtRest [.resume w, .idleLoop] none
  | queued (l : LockPtr) : AtRest [.semaDown (.ofLock l) true] (some l)

/-- In `full` if no chain of donations was cut. -/
@[grind cases] structure Donating (full : Prop) (callers : LockPtr → List ThreadPtr) (k : Kernel) :
    Prop where
  mlfqs : k.mlfqs = false
  steady : Steady full callers k.donation
  rest : ∀ t, AtRest (k.thread t).stack (k.thread t).waitingLock
  value : ∀ l, (k.sema (.ofLock l)).value = if k.holder l = none then 1 else 0
  queued : ∀ l, ∀ w ∈ callers l, w ∈ (k.sema (.ofLock l)).waiters

/-- The running thread is about to look at the semaphore of `l`. -/
structure Entered (full : Prop) (callers : LockPtr → List ThreadPtr) (k : Kernel) (l : LockPtr) :
    Prop where
  mlfqs : k.mlfqs = false
  steady : Steady full callers k.donation
  rest : ∀ t, t ≠ k.current → AtRest (k.thread t).stack (k.thread t).waitingLock
  idle : (k.thread k.current).stack = []
  waiting : (k.thread k.current).waitingLock = some l ∨
    (k.thread k.current).waitingLock = none ∧ k.holder l = none
  value : ∀ l, (k.sema (.ofLock l)).value = if k.holder l = none then 1 else 0
  queued : ∀ l', ∀ w ∈ callers l', w ∈ (k.sema (.ofLock l')).waiters ∨ w = k.current ∧ l' = l

section
variable {full : Prop} {callers : LockPtr → List ThreadPtr} {k k' : Kernel} {l : LockPtr}

theorem waiting_of_donation (eq : k'.donation = k.donation) (t : ThreadPtr) :
    (k'.thread t).waitingLock = (k.thread t).waitingLock :=
  congrFun (congrArg State.waiting eq) t

section
variable (inv : Donating full callers k)
include inv

theorem Donating.waiting_none
    (hi : (k.thread k.current).stack = []) : (k.thread k.current).waitingLock = none := by
  have rest := inv.rest k.current
  rw [hi] at rest
  generalize (k.thread k.current).waitingLock = waiting at rest
  cases rest
  rfl

/-- The scheduler ran: only the code the running thread left has changed. -/
theorem Donating.of_scheduler (donation : k'.donation = k.donation) (fixed : k'.fixed = k.fixed)
    (others : ∀ t, t ≠ k.current → (k'.thread t).stack = (k.thread t).stack)
    (self : AtRest (k'.thread k.current).stack (k.thread k.current).waitingLock) :
    Donating full callers k' := by
  have sema := sema_of_fixed fixed
  refine ⟨(mlfqs_of_fixed fixed).trans inv.mlfqs, donation ▸ inv.steady, ?_, ?_, ?_⟩
  · intro t
    rw [waiting_of_donation donation]
    by_cases h : t = k.current
    · rw [h]
      exact self
    · rw [others t h]
      exact inv.rest t
  · intro l
    rw [sema, holder_of_fixed fixed]
    exact inv.value l
  · intro l
    rw [sema]
    exact inv.queued l

theorem Donating.threadYield (hi : (k.thread k.current).stack = [])
    (h : k.threadYield = some k') : Donating full callers k' := by
  refine inv.of_scheduler (donation_threadYield h) (threadYield_fixed h) ?_ ?_
  · intro t ne
    rw [threadYield_stack h, if_neg ne]
  · rw [threadYield_stack h, if_pos rfl, hi, inv.waiting_none hi]
    exact .off .yielded

theorem Donating.yieldToFront (hi : (k.thread k.current).stack = [])
    (h : k.yieldToFront = some k') : Donating full callers k' := by
  unfold Kernel.yieldToFront at h
  split_ifs at h
  · exact inv.threadYield hi h
  · cases h
    exact inv

theorem Donating.block {code : List Instr}
    (rest : AtRest (code ++ (k.thread k.current).stack) (k.thread k.current).waitingLock)
    (h : (k.push code).threadBlock = some k') : Donating full callers k' := by
  have stack : ∀ t, (k'.thread t).stack =
      if t = k.current then code ++ (k.thread k.current).stack else (k.thread t).stack := by
    intro t
    rw [schedule_stack h]
    simp
  refine inv.of_scheduler ?_ ?_ ?_ ?_
  · rw [donation_threadBlock h]
    simp
  · rw [schedule_fixed h]
    rfl
  · intro t ne
    rw [stack, if_neg ne]
  · rw [stack, if_pos rfl]
    exact rest

end

theorem semaDown_blocks (zero : (k.sema (.ofLock l)).value = 0)
    (h : k.semaDown (.ofLock l) = some k') :
    k'.donation = k.donation ∧ k'.mlfqs = k.mlfqs ∧ k'.holder = k.holder ∧
      (∀ l', (k'.sema (.ofLock l')).value = (k.sema (.ofLock l')).value) ∧
      (∀ l' w, w ∈ (k'.sema (.ofLock l')).waiters ↔
        w ∈ (k.sema (.ofLock l')).waiters ∨ w = k.current ∧ l' = l) ∧
      ∀ t, (k'.thread t).stack = if t = k.current then
        .semaDown (.ofLock l) true :: (k.thread k.current).stack else (k.thread t).stack := by
  simp only [semaDown, if_pos zero] at h
  have fixed := schedule_fixed h
  have sema : k'.sema = (k.setSema (.ofLock l) ⟨(k.sema (.ofLock l)).value,
      Ordered.insertOrdered (k.push [.semaDown (.ofLock l) true]).threadPriorityGreater k.current
        (k.sema (.ofLock l)).waiters⟩).sema := sema_of_fixed fixed
  refine ⟨?_, ?_, ?_, ?_, ?_, ?_⟩
  · rw [donation_threadBlock h]
    simp
  · rw [mlfqs_of_fixed fixed]
    rfl
  · rw [holder_of_fixed fixed]
    rfl
  · intro l'
    rw [sema]
    by_cases eq : l' = l <;> simp [eq]
  · intro l' w
    rw [sema]
    by_cases eq : l' = l
    · subst eq
      simp [Ordered.mem_insertOrdered, or_comm]
    · simp [eq]
  · intro t
    rw [schedule_stack h]
    simp

theorem Entered.acquireTurn (entered : Entered full callers k l)
    (turn : k.acquireTurn l = some k') :
    Donating full callers k' := by
  simp only [Kernel.acquireTurn] at turn
  by_cases zero : (k.sema (.ofLock l)).value = 0
  · -- the lock is held, so the thread has recorded that it waits
    have held : k.holder l ≠ none := by
      intro free
      have := entered.value l
      simp [free, zero] at this
    have waiting : (k.thread k.current).waitingLock = some l :=
      entered.waiting.resolve_right fun h => held h.2
    rw [if_pos zero] at turn
    obtain ⟨donation, mlfqs, holder, value, waiters, stack⟩ := semaDown_blocks zero turn
    refine ⟨mlfqs.trans entered.mlfqs, donation ▸ entered.steady, ?_, ?_, ?_⟩
    · intro t
      rw [stack, waiting_of_donation donation]
      by_cases hp : t = k.current
      · rw [if_pos hp, entered.idle, hp, waiting]
        exact .queued l
      · rw [if_neg hp]
        exact entered.rest t hp
    · intro l'
      rw [value, holder]
      exact entered.value l'
    · intro l' w called
      exact (waiters l' w).mpr (entered.queued l' w called)
  · have free : k.holder l = none := by
      by_contra held
      exact zero (by rw [entered.value l, if_neg held])
    have one : (k.sema (.ofLock l)).value = 1 := by rw [entered.value l, if_pos free]
    rw [if_neg zero] at turn
    cases turn
    have hs : Steady full callers (k.donation.take k.current l) := by
      refine entered.steady.take free ?_
      intro l' hw
      change (k.thread k.current).waitingLock = some l' at hw
      rcases entered.waiting with eq | ⟨none, -⟩
      · exact some.inj (hw.symm.trans eq)
      · cases none.symm.trans hw
    refine ⟨entered.mlfqs, ?_, ?_, ?_, ?_⟩
    · rw [donation_take]
      exact hs
    · intro t
      by_cases hp : t = k.current
      · subst hp
        simpa [setWaiting, entered.idle] using AtRest.idle
      · simpa [setWaiting, hp] using entered.rest t hp
    · intro l'
      by_cases eq : l' = l
      · subst eq
        simp [setWaiting, one]
      · simpa [setWaiting, eq] using entered.value l'
    · intro l' w called
      by_cases eq : l' = l
      · rw [eq, entered.steady.free l free] at called
        cases called
      · have old := (entered.queued l' w called).resolve_right fun h => eq h.2
        simpa [setWaiting, eq] using old

end

/-! ### The operations -/

/-- The chain of donations of an `acquire` ends where nobody is left to raise,
not because it is too long. -/
def donationEnds (k : Kernel) (l : LockPtr) : Bool :=
  match k.register l with
  | none => true
  | some k1 =>
    let (k2, last) := donateLoop donationDepth k1 k.current
    (k2.donateStep last).isNone

def Uncut (k : Kernel) : Operation → Prop
  | .acquire l => k.donationEnds l
  | _ => True

instance (k : Kernel) : DecidablePred k.Uncut
  | .acquire l => inferInstanceAs (Decidable (k.donationEnds l = true))
  | .tryAcquire _ | .release _ | .setPriority _ | .yield | .block | .unblock _ | .resume =>
    inferInstanceAs (Decidable True)

section
variable {full : Prop} {callers : LockPtr → List ThreadPtr} {k k' : Kernel} {l : LockPtr}

section
variable (inv : Donating full callers k)
include inv

theorem Donating.enter (idle : (k.thread k.current).stack = [])
    (free : k.holder l = none) : Entered full callers k l where
  mlfqs := inv.mlfqs
  steady := inv.steady
  rest t _ := inv.rest t
  idle := idle
  waiting := .inr ⟨inv.waiting_none idle, free⟩
  value := inv.value
  queued l' w called := .inl (inv.queued l' w called)

theorem Donating.enterHeld (hi : (k.thread k.current).stack = [])
    {k1 : Kernel} (registered : k.register l = some k1) (uncut : full → k.Uncut (.acquire l)) :
    Entered full (Function.update callers l (k.current :: callers l))
      (k1.donatePriority k.current) l := by
  obtain ⟨h, held, donation⟩ := donation_register registered
  obtain ⟨h', -, eq⟩ := map_eq_some_iff.mp registered
  let k2 := k1.donatePriority k.current
  obtain ⟨hs, hb⟩ := inv.steady.register (inv.waiting_none hi) held
  obtain ⟨sound', below'⟩ := hs.walk donationDepth hb
  rw [← donation, donation_donateLoop] at sound' below'
  have steady : Steady full (Function.update callers l (k.current :: callers l)) k2.donation := by
    refine sound'.steady below' fun all => ?_
    have ends := uncut all
    simp only [Uncut, donationEnds, registered, isNone_iff_eq_none] at ends
    rw [donation_donateStep, ends]
    rfl
  have fixed : k2.fixed = k.fixed := by
    rw [show k2.fixed = k1.fixed from donateLoop_fixed _ _, ← eq]
    rfl
  have current : k2.current = k.current := by
    rw [show k2.current = k1.current from donateLoop_current _ _ _, ← eq]
    rfl
  have stack : ∀ t, (k2.thread t).stack = (k.thread t).stack := by
    intro t
    rw [show (k2.thread t).stack = (k1.thread t).stack from donateLoop_stack _ _ _ _, ← eq]
    simp [setWaiting]
  have waiting : ∀ t, (k2.thread t).waitingLock =
      if t = k.current then some l else (k.thread t).waitingLock := by
    intro t
    rw [show (k2.thread t).waitingLock = (k1.thread t).waitingLock from
      donateLoop_waitingLock _ _ _ _, ← eq]
    simp [setWaiting]
  have sema := sema_of_fixed fixed
  have holder := holder_of_fixed fixed
  refine ⟨(mlfqs_of_fixed fixed).trans inv.mlfqs, steady, ?_, ?_, .inl ?_, ?_, ?_⟩
  · grind
  · rw [current, stack, hi]
  · rw [current, waiting, if_pos rfl]
  · intro l'
    rw [sema, holder]
    exact inv.value l'
  · grind

theorem Donating.lockTryAcquire (hi : (k.thread k.current).stack = [])
    (acquired : k.lockTryAcquire l = some k') : Donating full callers k' := by
  simp only [Kernel.lockTryAcquire] at acquired
  split_ifs at acquired with held pos
  · -- with the semaphore up, the end of `lock_acquire` does the same
    have free : k.holder l = none := by grind
    refine (inv.enter hi free).acquireTurn ?_
    let k1 := k.setSema (.ofLock l) ⟨(k.sema (.ofLock l)).value - 1, (k.sema (.ofLock l)).waiters⟩
    have unchanged : k1.setWaiting k1.current none = k1 := by
      have idle1 : (k1.thread k1.current).waitingLock = none := inv.waiting_none hi
      simp only [setWaiting]
      apply modify_id
      simp only [← idle1]
    simp only [Kernel.acquireTurn, if_neg (Nat.pos_iff_ne_zero.mp pos)]
    exact (congrArg (fun k => some (k.setHolder l (some k1.current))) unchanged).trans acquired
  · cases acquired
    exact inv

theorem Donating.threadSetPriority (hi : (k.thread k.current).stack = []) {p : Int}
    (done : k.threadSetPriority p = some k') : Donating full callers k' := by
  have on : ¬ k.mlfqs = true := by simp [inv.mlfqs]
  simp only [Kernel.threadSetPriority, if_neg on] at done
  let k1 := (k.modify k.current fun th => { th with basePriority := p }).updatePriorityAfterRelease
    k.current
  have hs : Steady full callers k1.donation := by
    rw [donation_setBase]
    exact inv.steady.setBase (inv.waiting_none hi) p
  have inv1 : Donating full callers k1 := by
    refine ⟨inv.mlfqs, hs, ?_, inv.value, inv.queued⟩
    simpa [k1, updatePriorityAfterRelease] using inv.rest
  refine inv1.yieldToFront ?_ done
  simpa [k1, updatePriorityAfterRelease] using hi

theorem Donating.lockRelease (hi : (k.thread k.current).stack = [])
    (released : k.lockRelease l = some k') : Donating full (Function.update callers l []) k' := by
  simp only [Kernel.lockRelease] at released
  split_ifs at released with held mlfqs
  · cases mlfqs.symm.trans inv.mlfqs
  obtain ⟨k2, up, yielded⟩ := bind_eq_some_iff.mp released
  let k1 := ((k.setHolder l none).removeDonationsForLock k.current l).updatePriorityAfterRelease
    k.current
  have hs : Steady full (Function.update callers l []) k1.donation := by
    rw [donation_release]
    exact inv.steady.give (inv.waiting_none hi) held
  have stack : ∀ t, (k2.thread t).stack = (k.thread t).stack := by
    intro t
    rw [semaUp_stack up]
    simp [updatePriorityAfterRelease, removeDonationsForLock]
  obtain ⟨waiters, fixed⟩ := semaUp_fixed up
  have sema : k2.sema = Function.update k.sema (.ofLock l)
      ⟨unsigned ((k.sema (.ofLock l)).value + 1), waiters⟩ := sema_of_fixed fixed
  have holder : k2.holder = Function.update k.holder l none := holder_of_fixed fixed
  have inv2 : Donating full (Function.update callers l []) k2 := by
    refine ⟨(mlfqs_of_fixed fixed).trans inv.mlfqs, (donation_semaUp up).symm ▸ hs, ?_, ?_, ?_⟩
    · intro t
      rw [stack, waiting_of_donation (donation_semaUp up)]
      simpa [updatePriorityAfterRelease, removeDonationsForLock] using inv.rest t
    · intro l'
      rw [holder, sema]
      by_cases eq : l' = l
      · have zero : (k.sema (.ofLock l)).value = 0 := by
          rw [inv.value l, held]
          rfl
        simp [eq, zero, unsigned]
      · simpa [eq] using inv.value l'
    · intro l' w called
      rw [sema]
      by_cases eq : l' = l
      · simp [eq] at called
      · simpa [eq] using inv.queued l' w (by simpa [eq] using called)
  refine inv2.yieldToFront ?_ yielded
  rw [stack, semaUp_current up]
  exact hi

end

end

/-- What `callers` needs to know of a run. -/
inductive LockCall where
  | waits (t : ThreadPtr) (l : LockPtr)
  | released (l : LockPtr)

/-- The threads that called `lock_acquire` for `l` while it was held, since its
present holder got it. -/
def callers : List LockCall → LockPtr → List ThreadPtr
  | [], _ => []
  | .waits t l' :: seen, l => if l = l' then t :: callers seen l else callers seen l
  | .released l' :: seen, l => if l = l' then [] else callers seen l

def lockCalls (k : Kernel) : Operation → List LockCall
  | .acquire l => if k.holder l = none then [] else [.waits k.current l]
  | .release l => [.released l]
  | _ => []

section
variable {full : Prop} {seen : List LockCall} {k k' : Kernel} {l : LockPtr}

theorem callers_waits (seen : List LockCall) (t : ThreadPtr) (l : LockPtr) :
    callers (.waits t l :: seen) = Function.update (callers seen) l (t :: callers seen l) := by
  funext l'
  by_cases eq : l' = l <;> simp [callers, eq]

theorem callers_released (seen : List LockCall) (l : LockPtr) :
    callers (.released l :: seen) = Function.update (callers seen) l [] := by
  funext l'
  by_cases eq : l' = l <;> simp [callers, eq]

theorem Donating.lockAcquire (inv : Donating full (callers seen) k)
    (hi : (k.thread k.current).stack = []) (uncut : full → k.Uncut (.acquire l))
    (acquired : k.lockAcquire l = some k') :
    Donating full (callers (k.lockCalls (.acquire l) ++ seen)) k' := by
  unfold Kernel.lockAcquire at acquired
  split_ifs at acquired with held donates
  · obtain ⟨k1, registered, turn⟩ := bind_eq_some_iff.mp acquired
    have current : k1.current = k.current := by
      obtain ⟨h, -, rfl⟩ := map_eq_some_iff.mp registered
      rfl
    rw [current] at turn
    rw [lockCalls, if_neg donates.2, singleton_append, callers_waits]
    exact (inv.enterHeld hi registered uncut).acquireTurn turn
  · have free : k.holder l = none := by
      by_contra taken
      exact donates ⟨by simp [inv.mlfqs], taken⟩
    rw [lockCalls, if_pos free, nil_append]
    exact (inv.enter hi free).acquireTurn acquired

theorem Donating.resume (inv : Donating full (callers seen) k) (h : k.resume = some k') :
    Donating full (callers seen) k' := by
  have rest := inv.rest k.current
  have others : ∀ code t, t ≠ k.current →
      ((k.setStack k.current code).thread t).stack = (k.thread t).stack := by
    intro code t ne
    simp [ne]
  simp only [Kernel.resume] at h
  split at h
  · rename_i w code stack
    cases h
    refine inv.of_scheduler (by simp) rfl (others code) ?_
    rw [stack] at rest
    simp only [setStack, modify_stack, if_pos]
    generalize (k.thread k.current).waitingLock = waiting at rest ⊢
    cases rest with
    | off => exact .idle
    | idleOff => exact .idleLoop
  · rename_i l stack
    refine Entered.acquireTurn (l := l) ?_ h
    rw [stack] at rest
    have waiting : (k.thread k.current).waitingLock = some l := by
      generalize (k.thread k.current).waitingLock = waiting at rest ⊢
      cases rest
      rfl
    refine ⟨inv.mlfqs, ?_, ?_, ?_, .inl ?_, inv.value, fun l' w called => .inl
      (inv.queued l' w called)⟩
    · have eq : (k.setStack k.current []).donation = k.donation := by simp
      rw [eq]
      exact inv.steady
    · intro t ne
      rw [others [] t ne]
      simpa using inv.rest t
    · simp
    · simpa using waiting
  · rename_i stack
    rw [stack] at rest
    have waiting : (k.thread k.current).waitingLock = none := by
      generalize (k.thread k.current).waitingLock = waiting at rest ⊢
      cases rest
      rfl
    have popped : Donating full (callers seen) (k.setStack k.current []) := by
      refine inv.of_scheduler (by simp) rfl (others []) ?_
      simpa [waiting] using AtRest.idle
    refine popped.block ?_ h
    simpa [waiting] using AtRest.idleOff .idled
  · cases h

theorem Donating.operate {op : Operation} (inv : Donating full (callers seen) k)
    (uncut : full → k.Uncut op)
    (h : k.operate op = some k') : Donating full (callers (k.lockCalls op ++ seen)) k' := by
  have idle_of : k.inThreadCode = true → (k.thread k.current).stack = [] := isEmpty_iff.mp
  cases op with
  | acquire l =>
    simp only [Kernel.operate] at h
    split_ifs at h with free
    exact inv.lockAcquire (idle_of free) uncut h
  | tryAcquire l =>
    simp only [Kernel.operate] at h
    split_ifs at h with free
    exact inv.lockTryAcquire (idle_of free) h
  | release l =>
    simp only [Kernel.operate] at h
    split_ifs at h with free
    rw [lockCalls, singleton_append, callers_released]
    exact inv.lockRelease (idle_of free) h
  | setPriority p =>
    simp only [Kernel.operate] at h
    split_ifs at h with free
    exact inv.threadSetPriority (idle_of free) h
  | yield =>
    simp only [Kernel.operate] at h
    split_ifs at h with free
    exact inv.threadYield (idle_of free) h
  | block =>
    simp only [Kernel.operate] at h
    split_ifs at h with free
    refine inv.block ?_ h
    rw [idle_of free, inv.waiting_none (idle_of free)]
    exact .off .blocked
  | unblock t =>
    simp only [Kernel.operate] at h
    split_ifs at h
    refine inv.of_scheduler (donation_threadUnblock h) (threadUnblock_fixed h)
      (fun u _ => threadUnblock_stack h u) ?_
    rw [threadUnblock_stack h]
    exact inv.rest k.current
  | resume => exact inv.resume h

end

/-! ### Whole runs -/

/-- Nobody uses a lock, and every thread runs at its own priority. -/
structure Unlocked (k : Kernel) : Prop where
  mlfqs : k.mlfqs = false
  scheduled : Scheduled k
  rest : ∀ t, AtRest (k.thread t).stack none
  waiting : ∀ t, (k.thread t).waitingLock = none
  donations : ∀ t, (k.thread t).donations = []
  priority : ∀ t, (k.thread t).priority = (k.thread t).basePriority
  holder : ∀ l, k.holder l = none
  value : ∀ l, (k.sema (.ofLock l)).value = 1

theorem Unlocked.donating {full : Prop} {k : Kernel} (start : Unlocked k) :
    Donating full (callers []) k := by
  refine ⟨start.mlfqs, ⟨⟨?_, ?_, ?_, ?_, ?_, ?_⟩, ?_⟩, ?_, ?_, ?_⟩
  · intro d h
    simp [donation, start.donations, callers]
  · exact fun l d called => absurd called not_mem_nil
  · exact fun l _ => rfl
  · intro t
    simp [donation, start.donations]
  · exact fun t => (start.priority t).ge
  · exact fun t => .inl (start.priority t).le
  · intro _ d h donor
    simp [donation, start.donations] at donor
  · exact fun t => (start.waiting t).symm ▸ start.rest t
  · intro l
    rw [start.value, start.holder, if_pos rfl]
  · exact fun l w called => absurd called not_mem_nil

/-- The thread is inside `lock_acquire`, has not got the lock, and has not got
the CPU since it was put in the queue of the lock or woken from it. -/
def WaitsFor (k : Kernel) (w : ThreadPtr) (l : LockPtr) : Prop :=
  (k.thread w).stack = [.semaDown (.ofLock l) true]

def BlockedOn (k : Kernel) (w : ThreadPtr) (l : LockPtr) : Prop :=
  (k.thread w).status = .blocked ∧ k.WaitsFor w l

/-- `t` runs at the highest of its base priority and the priorities of the
threads blocked on a lock it holds. -/
def ExactAt (k : Kernel) (t : ThreadPtr) : Prop :=
  IsGreatest (insert (k.thread t).basePriority {p | ∃ w l, k.BlockedOn w l ∧
    k.holder l = some t ∧ (k.thread w).priority = p}) (k.thread t).priority

theorem Donating.waitsFor_iff {full : Prop} {k : Kernel} (inv : Donating full called k)
    (w : ThreadPtr) (l : LockPtr) : k.WaitsFor w l ↔ (k.thread w).waitingLock = some l := by
  have rest := inv.rest w
  unfold WaitsFor
  generalize (k.thread w).stack = stack at rest ⊢
  generalize (k.thread w).waitingLock = waiting at rest ⊢
  cases rest <;> simp

theorem Donating.blockedOn {full : Prop} {k : Kernel} (inv : Donating full called k)
    (scheduled : Scheduled k) {l : LockPtr} (mem : w ∈ called l) : k.BlockedOn w l :=
  ⟨((scheduled.lists.waiting _ w).mp (inv.queued l w mem)).1,
    (inv.waitsFor_iff w l).mpr (inv.steady.waits l w mem)⟩

theorem donating_run (full : Prop) {ok : Kernel → Operation → Prop} {k0 k : Kernel}
    {history : List Operation} (start : Unlocked k0) (run : Machine.Run operate ok k0 history k)
    (uncut : full → ∀ a op, ok a op → a.Uncut op) :
    Donating full (callers (Machine.log operate lockCalls k0 history)) k ∧ Scheduled k := by
  refine run.log_invariant (I := fun seen k => Donating full (callers seen) k ∧ Scheduled k)
    ⟨start.donating, start.scheduled⟩ ?_
  intro seen a op b inv allowed ran
  refine ⟨inv.1.operate (fun all => uncut all a op allowed) ran, ?_⟩
  obtain ⟨history, fine⟩ := operate_run (inv.1.steady.distinct a.current) ran
  exact fine.invariant inv.2 fun _ _ _ inv _ h => inv.step h

/-- While no chain of donations is cut, a thread runs no lower than its base
priority and the threads that called `lock_acquire` for its locks since it got
them, and no higher than its base priority and the threads inside `lock_acquire`
for its locks. When these are the same threads, its priority is exact. -/
theorem donation_bounds {k0 k : Kernel} {history : List Operation} (start : Unlocked k0)
    (run : Machine.Run operate Uncut k0 history k) (t : ThreadPtr) :
    let called := callers (Machine.log operate lockCalls k0 history)
    (k.thread t).basePriority ≤ (k.thread t).priority ∧
    (∀ w l, w ∈ called l → k.holder l = some t →
      k.BlockedOn w l ∧ (k.thread w).priority ≤ (k.thread t).priority) ∧
    ((k.thread t).priority ≤ (k.thread t).basePriority ∨ ∃ w l, k.WaitsFor w l ∧
      k.holder l = some t ∧ (k.thread t).priority ≤ (k.thread w).priority) ∧
    ((∀ w l, k.WaitsFor w l → k.holder l = some t → w ∈ called l) → k.ExactAt t) := by
  intro called
  obtain ⟨inv, scheduled⟩ := donating_run True start run fun _ _ _ uncut => uncut
  have hs := inv.steady
  refine ⟨hs.base t, ?_, ?_, ?_⟩
  · intro w l mem held
    exact ⟨inv.blockedOn scheduled mem,
      hs.below trivial w t ((hs.listed w t).mpr ⟨l, held, mem⟩)⟩
  · rcases hs.lent t with own | ⟨w, l, waiting, held, le⟩
    · exact .inl own
    · exact .inr ⟨w, l, (inv.waitsFor_iff w l).mpr waiting, held, le⟩
  · intro all
    have all' : ∀ w l, (k.thread w).waitingLock = some l → k.holder l = some t → w ∈ called l :=
      fun w l waiting => all w l ((inv.waitsFor_iff w l).mpr waiting)
    have greatest := hs.isGreatest all'
    have same : {p | ∃ w l, k.BlockedOn w l ∧ k.holder l = some t ∧ (k.thread w).priority = p} =
        {p | ∃ w l, (k.thread w).waitingLock = some l ∧ k.holder l = some t ∧
          (k.thread w).priority = p} := by
      ext p
      constructor
      · rintro ⟨w, l, blocked, held, eq⟩
        exact ⟨w, l, (inv.waitsFor_iff w l).mp blocked.2, held, eq⟩
      · rintro ⟨w, l, waiting, held, eq⟩
        exact ⟨w, l, inv.blockedOn scheduled (all' w l waiting held), held, eq⟩
    unfold ExactAt
    rw [same]
    exact greatest

/-- However long the chains of donations, a thread is in one list of donors at most,
that of the holder of the lock it waits for, no thread runs below its base priority,
and nothing of a donation is left to a thread that holds no lock. -/
theorem donations_undone {k0 k : Kernel} {history : List Operation} (start : Unlocked k0)
    (run : Machine.Run operate Machine.Free k0 history k) :
    (∀ h, (k.thread h).donations.Nodup) ∧
    (∀ d h h', d ∈ (k.thread h).donations → d ∈ (k.thread h').donations → h = h') ∧
    (∀ d h, d ∈ (k.thread h).donations →
      ∃ l, (k.thread d).waitingLock = some l ∧ k.holder l = some h) ∧
    (∀ t, (k.thread t).basePriority ≤ (k.thread t).priority) ∧
    ∀ t, (∀ l, k.holder l ≠ some t) → (k.thread t).priority = (k.thread t).basePriority := by
  have hs := (donating_run False start run False.elim).1.steady.toSound
  exact ⟨hs.distinct, fun d h h' => hs.one_list, fun d h => hs.registered, hs.base,
    fun t => hs.undone⟩

/-- The initial thread runs, `n` more of the default priority are ready, and the
idle thread is off the CPU. -/
def crowd (n : Nat) : Kernel where
  thread t :=
    if t = mainThread then
      { tid := 1, status := .running, priority := priDefault, basePriority := priDefault }
    else if t = bootIdle then { tid := 2, stack := [.resume .idled, .idleLoop] }
    else if t < n + 2 then
      { initThread priDefault [] with tid := t + 1, status := .ready }
    else {}
  created := n + 2
  current := mainThread
  idleThread := some bootIdle
  readyList := range' 2 n
  allList := range (n + 2)
  sleepList := []
  sema s := match s with
    | .ofLock _ => ⟨1, []⟩
    | _ => ⟨0, []⟩
  holder _ := none
  condWaiters _ := []
  nextTid := n + 3
  mlfqs := false
  loadAvg := 0
  ticks := 0
  currentTicks := 0
  threadTicks := 0

/-- The four kinds of record in `crowd`. -/
theorem crowd_cases (n : Nat) {P : Nat → Thread → Prop}
    (main : P 0 { tid := 1, status := .running, priority := priDefault, basePriority :=
      priDefault })
    (hi : P 1 { tid := 2, stack := [.resume .idled, .idleLoop] })
    (ready : ∀ t : Nat, 2 ≤ t → t < n + 2 →
      P t { initThread priDefault [] with tid := t + 1, status := .ready })
    (rest : ∀ t, n + 2 ≤ t → P t {}) (t : Nat) : P t ((crowd n).thread t) := by
  match t with
  | 0 => exact main
  | 1 => exact hi
  | t + 2 =>
    have ne : t + 2 ≠ mainThread ∧ t + 2 ≠ bootIdle := by simp [mainThread, bootIdle]
    simp only [crowd, if_neg ne.1, if_neg ne.2]
    split_ifs with hb
    · exact ready (t + 2) (Nat.le_add_left 2 t) hb
    · exact rest (t + 2) (Nat.le_of_not_lt hb)

theorem crowd_waiters (n : Nat) (s : SemaPtr) : ((crowd n).sema s).waiters = [] := by
  cases s <;> rfl

theorem lists_crowd (n : Nat) : Lists (crowd n) (some mainThread) := by
  have byCases {P : Nat → Thread → Prop} := @crowd_cases n P
  constructor
  case running =>
    refine byCases (P := fun t th => th.status = .running ↔ some mainThread = some t) ?_ ?_ ?_ ?_
    · simp [mainThread]
    · simp [mainThread]
    · intro t two _
      have ne : mainThread ≠ t := Nat.ne_of_lt (Nat.lt_of_lt_of_le Nat.zero_lt_two two)
      simpa using ne
    · intro t far
      have ne : mainThread ≠ t := Nat.ne_of_lt (Nat.lt_of_lt_of_le (Nat.succ_pos _) far)
      simpa using ne
  case ready =>
    refine byCases (P := fun t th => t ∈ range' 2 n ↔
      th.status = .ready ∧ some bootIdle ≠ some t) ?_ ?_ ?_ ?_
    · simp [mem_range'_1]
    · simp [mem_range'_1, bootIdle]
    · intro t two hb
      have ne : bootIdle ≠ t := Nat.ne_of_lt two
      simp [mem_range'_1, ne, two, Nat.add_comm 2 n, hb]
    · intro t far
      simp [mem_range'_1]
      omega
  case readyNodup => exact nodup_range'
  case readySorted =>
    have eq : ∀ t, t ∈ range' 2 n → ((crowd n).thread t).priority = priDefault := by
      refine byCases (P := fun t th => t ∈ range' 2 n → th.priority = priDefault) ?_ ?_ ?_ ?_
      · exact fun _ => rfl
      · simp [mem_range'_1]
      · exact fun _ _ _ _ => rfl
      · intro t far
        simp [mem_range'_1]
        omega
    refine pairwise_of_forall_mem_list ?_
    intro a first b second
    simp [threadPriorityGreater, eq a first, eq b second]
  case sleeping =>
    refine byCases (P := fun t th => t ∈ [] ↔
      th.status = .blocked ∧ th.stack.head? = some (.resume .slept)) ?_ ?_ ?_ ?_ <;>
        simp [initThread]
  case sleepNodup => exact nodup_nil
  case waiting =>
    intro s
    rw [crowd_waiters]
    refine byCases (P := fun t th => t ∈ [] ↔
      th.status = .blocked ∧ th.stack.head? = some (.semaDown s true)) ?_ ?_ ?_ ?_ <;>
        simp [initThread]
  case waitersNodup =>
    intro s
    rw [crowd_waiters]
    exact nodup_nil
  case all =>
    refine byCases (P := fun t th => t ∈ range (n + 2) ↔
      t < n + 2 ∧ th.status ≠ .dying) ?_ ?_ ?_ ?_ <;> simp
  case allNodup => exact nodup_range

theorem stacks_crowd (n : Nat) : Stacks (crowd n) := by
  have byCases {P : Nat → Thread → Prop} := @crowd_cases n P
  have creates : ∀ u, ((crowd n).thread u).stack.countP Instr.creates = 0 := by
    refine byCases (P := fun _ th => th.stack.countP Instr.creates = 0) ?_ ?_ ?_ ?_ <;>
      simp [initThread]
  have notCreating : ∀ u st t p, .create st t p ∉ ((crowd n).thread u).stack :=
    fun u st t p h => countP_eq_zero.mp (creates u) _ h rfl
  constructor
  case unborn =>
    refine byCases (P := fun t th => n + 2 ≤ t → th.status = .blocked ∧ th.stack = [])
      ?_ ?_ ?_ ?_
    · simp
    · simp
    · intro t _ hb far
      exact absurd hb (Nat.not_lt.mpr far)
    · simp
  case idlePtr => exact Or.inr rfl
  case idleInstrs =>
    show ∀ i ∈ [.resume .idled, .idleLoop], Instr.idles i = true
    simp
  case idleLast => exact Or.inl rfl
  case idleAlive => exact (by decide : Status.blocked ≠ .dying)
  case idleStart =>
    refine byCases (P := fun t th => ∀ s, .idleStart s ∈ th.stack → t = bootIdle) ?_ ?_ ?_ ?_ <;>
      simp [bootIdle, initThread]
  case ownWaiter =>
    refine byCases (P := fun t th => ∀ u r, .semaDown (.ofWaiter u) r ∈ th.stack → u = t)
      ?_ ?_ ?_ ?_ <;> simp [initThread]
  case creating => exact fun u st t p h => absurd h (notCreating u st t p)
  case creatingOnce => intro u; rw [creates]; decide
  case creatingUnique => exact fun u _ st _ t p _ h => absurd h (notCreating u st t p)
  case holders => rintro _ _ ⟨⟩

theorem unlocked_crowd (n : Nat) : Unlocked (crowd n) where
  mlfqs := rfl
  scheduled := ⟨lists_crowd n, stacks_crowd n⟩
  rest := by
    refine crowd_cases n (P := fun _ th => AtRest th.stack none) .idle (.idleOff _) ?_ ?_
    · exact fun _ _ _ => .off _
    · exact fun _ _ => .idle
  waiting := by
    refine crowd_cases n (P := fun _ th => th.waitingLock = none) rfl rfl ?_ ?_ <;> simp
      [initThread]
  donations := by
    refine crowd_cases n (P := fun _ th => th.donations = []) rfl rfl ?_ ?_ <;> simp [initThread]
  priority := by
    refine crowd_cases n (P := fun _ th => th.priority = th.basePriority) rfl rfl ?_ ?_ <;>
      simp [initThread]
  holder _ := rfl
  value _ := rfl

/-- A chain of ten threads: the last one's donation stops one short of the first. -/
def longChain : List Operation :=
  [.acquire 0, .yield] ++
  ((range 8).flatMap fun i => [.resume, .acquire (i + 1), .acquire i]) ++
  [.resume, .setPriority 63, .acquire 8]

/-- A thread inherits a waiter with the lock, and then lowers its priority. -/
def inheritedWaiter : List Operation :=
  [.acquire 0, .yield, .resume, .acquire 0, .resume, .setPriority 33, .acquire 0,
   .resume, .release 0, .resume, .setPriority 20]

/-- A woken waiter finds the lock taken again, and passes on a donation before it looks. -/
def wokenWaiter : List Operation :=
  [.acquire 0, .yield, .resume, .acquire 1, .acquire 0, .resume, .yield,
   .resume, .release 0, .acquire 0, .yield, .resume, .setPriority 63, .acquire 1]

/-- The lock a thread is inside `lock_acquire` for. -/
def waitsLock (k : Kernel) (w : ThreadPtr) : Option LockPtr :=
  match (k.thread w).stack with
  | [.semaDown (.ofLock l) true] => some l
  | _ => none

def blockedLock (k : Kernel) (w : ThreadPtr) : Option LockPtr :=
  if (k.thread w).status = .blocked then k.waitsLock w else none

theorem waitsLock_iff {k : Kernel} {l : LockPtr} : k.waitsLock w = some l ↔ k.WaitsFor w l := by
  unfold waitsLock WaitsFor
  split
  · rename_i l' stack
    simp [stack]
  · rename_i ne
    exact ⟨nofun, fun stack => absurd stack (ne l)⟩

theorem blockedLock_iff {k : Kernel} {l : LockPtr} :
    k.blockedLock w = some l ↔ k.BlockedOn w l := by
  unfold blockedLock BlockedOn
  split_ifs with blocked
  · simp [blocked, waitsLock_iff]
  · simp [blocked]

theorem born_of_waitsFor {k : Kernel} (scheduled : Scheduled k) {l : LockPtr}
    (hw : k.WaitsFor w l) : w < k.created := by
  by_contra unborn
  have none := (scheduled.tidy.unborn w (Nat.le_of_not_lt unborn)).2
  cases none.symm.trans hw

theorem not_exactAt_of_lower {k : Kernel} {l : LockPtr}
    (blocked : k.blockedLock w = some l) (held : k.holder l = some t)
    (lower : (k.thread t).priority < (k.thread w).priority) : ¬ k.ExactAt t := by
  intro exact
  have above := exact.2 (.inr ⟨w, l, blockedLock_iff.mp blocked, held, rfl⟩)
  exact absurd lower (not_lt.mpr above)

theorem not_exactAt_of_higher {k : Kernel} (scheduled : Scheduled k)
    (nobody : ∀ w < k.created, ∀ l ∈ k.blockedLock w, k.holder l ≠ some t)
    (higher : (k.thread t).basePriority < (k.thread t).priority) : ¬ k.ExactAt t := by
  intro exact
  rcases exact.1 with own | ⟨w, l, blocked, held, -⟩
  · exact absurd own (ne_of_gt higher)
  · have hb := born_of_waitsFor scheduled blocked.2
    exact nobody w hb l (blockedLock_iff.mpr blocked) held

/-- The chain of ten is cut; the inherited waiter is missing from the list the
priority is computed from; the woken waiter lends what nobody blocked has. -/
theorem donation_not_exact :
    (∃ k, Machine.Run operate Machine.Free (crowd 9) longChain.reverse k ∧
      ¬ k.ExactAt mainThread) ∧
    (∃ k, Machine.Run operate Uncut (crowd 2) inheritedWaiter.reverse k ∧ ¬ k.ExactAt 3) ∧
    (∃ k, Machine.Run operate Uncut (crowd 2) wokenWaiter.reverse k ∧
      ¬ k.ExactAt mainThread) := by
  refine ⟨?_, ?_, ?_⟩
  · have computed : (Machine.runs operate Machine.Free (crowd 9) longChain).map (fun k =>
        (k.blockedLock 2, k.holder 0, (k.thread 0).priority, (k.thread 2).priority)) =
          some (some 0, some 0, 31, 63) := by decide +kernel
    obtain ⟨k, hr, eq⟩ := map_eq_some_iff.mp computed
    simp only [Prod.mk.injEq] at eq
    refine ⟨k, Machine.runs_run hr, not_exactAt_of_lower eq.1 eq.2.1 ?_⟩
    show (k.thread 0).priority < _
    rw [eq.2.2.1, eq.2.2.2]
    decide
  · have computed : (Machine.runs operate Uncut (crowd 2) inheritedWaiter).map (fun k =>
        (k.blockedLock 2, k.holder 0, (k.thread 3).priority, (k.thread 2).priority)) =
          some (some 0, some 3, 20, 31) := by decide +kernel
    obtain ⟨k, hr, eq⟩ := map_eq_some_iff.mp computed
    simp only [Prod.mk.injEq] at eq
    refine ⟨k, Machine.runs_run hr, not_exactAt_of_lower eq.1 eq.2.1 ?_⟩
    rw [eq.2.2.1, eq.2.2.2]
    decide
  · have computed : (Machine.runs operate Uncut (crowd 2) wokenWaiter).map (fun k =>
        (decide (∀ w < k.created, ∀ l ∈ k.blockedLock w, k.holder l ≠ some mainThread),
          (k.thread 0).basePriority, (k.thread 0).priority)) = some (true, 31, 63) := by
      decide +kernel
    obtain ⟨k, hr, eq⟩ := map_eq_some_iff.mp computed
    simp only [Prod.mk.injEq, decide_eq_true_eq] at eq
    have run := Machine.runs_run hr
    have scheduled := (donating_run False (unlocked_crowd 2) run False.elim).2
    refine ⟨k, run, not_exactAt_of_higher scheduled eq.1 ?_⟩
    show (k.thread 0).basePriority < (k.thread 0).priority
    rw [eq.2.1, eq.2.2]
    decide

/-- The initial thread holds a lock that another calls for at a higher priority. -/
def donateOnce : List Operation :=
  [.acquire 0, .yield, .resume, .setPriority 40, .acquire 0]

theorem donation_bounds_donateOnce : ∃ k,
    Machine.Run operate Uncut (crowd 1) donateOnce.reverse k ∧
    (k.thread mainThread).priority = 40 ∧ k.ExactAt mainThread := by
  let called := callers (Machine.log operate lockCalls (crowd 1) donateOnce.reverse)
  have computed : (Machine.runs operate Uncut (crowd 1) donateOnce).map (fun k =>
      ((k.thread 0).priority, decide (∀ w < k.created, ∀ l ∈ k.waitsLock w,
        k.holder l = some mainThread → w ∈ called l))) = some (40, true) := by decide +kernel
  obtain ⟨k, hr, eq⟩ := map_eq_some_iff.mp computed
  simp only [Prod.mk.injEq, decide_eq_true_eq] at eq
  have run := Machine.runs_run hr
  have scheduled := (donating_run False (unlocked_crowd 1) run False.elim).2
  refine ⟨k, run, eq.1, (donation_bounds (unlocked_crowd 1) run mainThread).2.2.2 ?_⟩
  intro w l hw held
  exact eq.2 w (born_of_waitsFor scheduled hw) l (waitsLock_iff.mpr hw) held

theorem donations_undone_donateOnce : ∃ k,
    Machine.Run operate Machine.Free (crowd 1) donateOnce.reverse k ∧
    2 ∈ (k.thread mainThread).donations ∧
    ∃ l, (k.thread 2).waitingLock = some l ∧ k.holder l = some mainThread := by
  have computed : (Machine.runs operate Machine.Free (crowd 1) donateOnce).map (fun k =>
      (k.thread mainThread).donations) = some [2] := by decide +kernel
  obtain ⟨k, hr, donors⟩ := map_eq_some_iff.mp computed
  have run := Machine.runs_run hr
  have donor : 2 ∈ (k.thread mainThread).donations := donors ▸ mem_singleton_self 2
  exact ⟨k, run, donor, (donations_undone (unlocked_crowd 1) run).2.2.1 2 mainThread donor⟩

end Kernel

end Pintos.Threads
