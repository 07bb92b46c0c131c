import Pintos.Threads.Preemption

/-!
# What instructions leave alone

Only a few instructions write a semaphore, the holder of a lock, the waiters of a
condition or `all_list`, and none changes the scheduler in use. `fixed`
is these parts of the state together; everything else that an event does goes by
without a trace in it.
-/

namespace Pintos.Threads

open Option

/-- Instructions that write a semaphore, a holder, the waiters of a condition or `all_list`. -/
@[simp] def Instr.writes : Instr → Bool
  | .semaDown .. | .semaTryDown _ | .semaUp _ | .condWait .. | .condSignal .. => true
  | .setHolder _ | .clearHolder _ => true
  | .threadExit | .initThread _ => true
  | _ => false

/-- Instructions that make a thread ready, switch threads or change a priority. -/
@[simp] def Instr.ranks : Instr → Bool
  | .semaDown .. | .semaUp _ | .threadYield | .threadBlock | .threadUnblock _ | .threadSleep _ =>
      true
  | .threadExit | .initThread _ | .create .unblock _ _ | .maxDonation none _ => true
  | .threadSetNice _ | .donatePriority | .idleLoop => true
  | _ => false

/-- Instructions that put a thread to sleep, and those of `lock_acquire` and `lock_release`
that write a record of a thread. -/
@[simp] def Instr.stirs : Instr → Bool
  | .threadSleep _ | .initThread _ | .setWaiting _ | .clearWaiting | .pushDonation _
  | .removeDonation _ (some _) => true
  | _ => false

namespace Kernel

def fixed (k : Kernel) :
    List ThreadPtr × Nat × Bool × (SemaPtr → Semaphore) × (LockPtr → Option ThreadPtr) ×
      (CondPtr → List ThreadPtr) :=
  (k.allList, k.created, k.mlfqs, k.sema, k.holder, k.condWaiters)

@[simp] theorem modify_fixed (k : Kernel) (t : ThreadPtr) (f : Thread → Thread) :
    (k.modify t f).fixed = k.fixed := rfl

section
variable {k k' : Kernel}

theorem schedule_fixed (h : k.schedule = some k') : k'.fixed = k.fixed := by
  obtain ⟨next, rest, _, rfl⟩ := schedule_eq h
  rfl

theorem threadUnblock_fixed {t : ThreadPtr} (h : k.threadUnblock t = some k') :
    k'.fixed = k.fixed := by
  rw [(threadUnblock_eq h).2]; rfl

theorem threadYield_fixed (h : k.threadYield = some k') : k'.fixed = k.fixed := by
  simp only [threadYield] at h
  split_ifs at h <;> rw [schedule_fixed h] <;> rfl

theorem donateLoop_fixed (depth : Nat) (t : ThreadPtr) :
    (donateLoop depth k t).1.fixed = k.fixed := by
  induction depth generalizing k t with
  | zero => rfl
  | succ depth ih =>
    unfold donateLoop
    split
    · rfl
    · rename_i k1 holder step
      obtain ⟨_, _, _, _, rfl⟩ := donateStep_eq step
      rw [ih]; simp [fixed]

theorem checkFront_fixed (k : Kernel) : k.checkFront.fixed = k.fixed := by
  unfold checkFront; split <;> rfl

theorem wakeLoop_fixed {now : Int} {sleepers : List ThreadPtr}
    (h : wakeLoop now sleepers k = some k') : k'.fixed = k.fixed := by
  induction sleepers generalizing k with
  | nil => rw [← some.inj h]
  | cons t others ih =>
    unfold wakeLoop at h
    split_ifs at h
    · rw [← some.inj h]
    · obtain ⟨k1, woken, h⟩ := bind_eq_some_iff.mp h
      rw [ih h, threadUnblock_fixed woken]; rfl

/-- A part of the state that no turn of `thread_foreach` changes. -/
theorem threadForeach_keep {β : Type*} (part : Kernel → β) {f : Kernel → ThreadPtr → Kernel}
    (each : ∀ k t, part (f k t) = part k) : part (k.threadForeach f) = part k := by
  unfold threadForeach
  generalize k.allList = all
  induction all generalizing k with
  | nil => rfl
  | cons t all ih => exact ih.trans (each k t)

theorem mlfqsTick_fixed : k.mlfqsTick.fixed = k.fixed := by
  have priority : ∀ k t, (mlfqsCalcPriority k t).fixed = k.fixed := by
    intro k t; unfold mlfqsCalcPriority; split <;> rfl
  have cpu : ∀ k t, (mlfqsCalcRecentCpu k t).fixed = k.fixed := by
    intro k t; unfold mlfqsCalcRecentCpu; split <;> rfl
  have all : ∀ k : Kernel, k.mlfqsUpdateAllPriorities.fixed = k.fixed :=
    fun k => (rfl : _ = (k.threadForeach _).fixed).trans (threadForeach_keep fixed priority)
  have load : ∀ k : Kernel, k.mlfqsUpdateLoadAvgAndRecentCpu.fixed = k.fixed :=
    fun k => (threadForeach_keep fixed cpu).trans rfl
  simp only [mlfqsTick]
  split_ifs <;> simp [all, load]

theorem timerInterrupt_fixed {yield : Bool} (h : k.timerInterrupt = some (k', yield)) :
    k'.fixed = k.fixed := by
  obtain ⟨k1, woken, eq⟩ := map_eq_some_iff.mp h
  cases eq
  rw [wakeLoop_fixed woken]
  simp only [threadTick]
  split
  · exact mlfqsTick_fixed.trans rfl
  · rfl

end

variable {i : Instr} {s : SemaPtr}

theorem execInstr_fixed {k k' : Kernel} (h : k.execInstr i = some k')
    (reads : i.writes = false) : k'.fixed = k.fixed := by
  cases i with
  | semaDown | semaTryDown | semaUp | condWait | condSignal | setHolder | clearHolder | threadExit
  | initThread => cases reads
  | checkFront => cases h; exact checkFront_fixed k
  | threadYield => exact threadYield_fixed h
  | threadBlock => rw [schedule_fixed h]; rfl
  | threadUnblock t =>
    simp only [execInstr] at h
    split_ifs at h
    exact threadUnblock_fixed h
  | threadSleep w => rw [schedule_fixed h]; rfl
  | create st t p =>
    cases st with
    | unblock =>
      obtain ⟨k1, woken, rfl⟩ := map_eq_some_iff.mp h
      simpa using threadUnblock_fixed woken
    | _ => cases h; rfl
  | maxDonation e m => cases e <;> (cases h; rfl)
  | threadSetNice n =>
    rw [← some.inj h, checkFront_fixed, mlfqsCalcPriority]; split <;> rfl
  | pushDonation l =>
    obtain ⟨holder, _, rfl⟩ := map_eq_some_iff.mp h
    rfl
  | donatePriority => cases h; exact donateLoop_fixed _ _
  | removeDonation l e =>
    cases e with
    | none => rw [← some.inj h]
    | some d => cases h; split <;> rfl
  | idleLoop => rw [schedule_fixed h]; rfl
  | createCheck | setBase | condBroadcast | timerSleep =>
    simp only [execInstr, some.injEq] at h
    subst h
    split <;> rfl
  | lockAcquire | lockTryAcquire | lockRelease =>
    simp only [execInstr] at h
    split_ifs at h <;> cases h <;> rfl
  | resume w => rw [← some.inj h]
  | _ => cases h; rfl

/-- `sema_down` changes the semaphore it is called on and nothing else of `fixed`. -/
theorem semaDown_fixed {k k' : Kernel} (h : k.semaDown s = some k') :
    ∃ v, k'.fixed = (k.setSema s v).fixed := by
  simp only [semaDown] at h
  split_ifs at h
  · exact ⟨_, (schedule_fixed h).trans rfl⟩
  · exact ⟨_, by cases h; rfl⟩

theorem semaUp_fixed {k k' : Kernel} (h : k.semaUp s = some k') :
    ∃ waiters, k'.fixed =
      (k.setSema s { value := unsigned ((k.sema s).value + 1), waiters }).fixed := by
  simp only [semaUp] at h
  split at h
  · exact ⟨_, by rw [← some.inj h]⟩
  · exact ⟨_, threadUnblock_fixed h⟩

theorem condSignal_fixed {k k' : Kernel} {c : CondPtr} {l : LockPtr} {stray : ThreadPtr → Int}
    (h : k.execInstr (.condSignal c l stray) = some k') :
    ∃ condWaiters, k'.fixed = { k with condWaiters }.fixed := by
  simp only [execInstr] at h
  split_ifs at h
  split at h
  · exact ⟨k.condWaiters, by rw [← some.inj h]⟩
  · exact ⟨_, by cases h; rfl⟩

theorem semaTryDown_fixed (k : Kernel) (s : SemaPtr) :
    ∃ v, (k.semaTryDown s).fixed = (k.setSema s v).fixed := by
  simp only [semaTryDown]
  split
  · exact ⟨_, rfl⟩
  · exact ⟨k.sema s, by simp [fixed, setSema]⟩

theorem mlfqs_of_fixed {k k' : Kernel} (eq : k'.fixed = k.fixed) : k'.mlfqs = k.mlfqs := by
  simp only [fixed, Prod.mk.injEq] at eq
  exact eq.2.2.1

theorem sema_of_fixed {k k' : Kernel} (eq : k'.fixed = k.fixed) : k'.sema = k.sema := by
  simp only [Kernel.fixed, Prod.mk.injEq] at eq
  exact eq.2.2.2.1

theorem holder_of_fixed {k k' : Kernel} (eq : k'.fixed = k.fixed) : k'.holder = k.holder := by
  simp only [fixed, Prod.mk.injEq] at eq
  exact eq.2.2.2.2.1

theorem condWaiters_of_fixed {k k' : Kernel} (eq : k'.fixed = k.fixed) :
    k'.condWaiters = k.condWaiters := by
  simp only [fixed, Prod.mk.injEq] at eq
  exact eq.2.2.2.2.2

/-- What an instruction makes of the fixed parts. -/
inductive Writes (k : Kernel) : Instr → Kernel → Prop where
  | none {i : Instr} : i.writes = false → Writes k i k
  | down (s : SemaPtr) (r : Bool) (v : Semaphore) : Writes k (.semaDown s r) (k.setSema s v)
  | tryDown (s : SemaPtr) (v : Semaphore) : Writes k (.semaTryDown s) (k.setSema s v)
  | up (s : SemaPtr) (v : Semaphore) : Writes k (.semaUp s) (k.setSema s v)
  | setHolder (l : LockPtr) : Writes k (.setHolder l) (k.setHolder l (some k.current))
  | clearHolder (l : LockPtr) : Writes k (.clearHolder l) (k.setHolder l none)
  | wait (c : CondPtr) (l : LockPtr) (v : Semaphore) (condWaiters : CondPtr → List ThreadPtr) :
    Writes k (.condWait c l) { k.setSema (.ofWaiter k.current) v with condWaiters }
  | signal (c : CondPtr) (l : LockPtr) (stray : ThreadPtr → Int)
    (condWaiters : CondPtr → List ThreadPtr) : Writes k (.condSignal c l stray)
      { k with condWaiters }
  | exit : Writes k .threadExit { k with allList := k.allList.erase k.current }
  | init (p : Int) : Writes k (.initThread p)
      { k with created := k.created + 1, allList := k.allList ++ [k.created] }

theorem execInstr_writes {k k' : Kernel} (h : k.execInstr i = some k') :
    ∃ k1, Writes k i k1 ∧ k'.fixed = k1.fixed := by
  cases i with
  | semaDown s r =>
    obtain ⟨v, eq⟩ := semaDown_fixed h
    exact ⟨_, .down s r v, eq⟩
  | semaTryDown s =>
    obtain ⟨v, eq⟩ := semaTryDown_fixed k s
    cases h
    exact ⟨_, .tryDown s v, eq⟩
  | semaUp s =>
    obtain ⟨k1, up, rfl⟩ := map_eq_some_iff.mp h
    obtain ⟨waiters, eq⟩ := semaUp_fixed up
    exact ⟨_, .up s _, eq⟩
  | condWait c l =>
    simp only [execInstr] at h
    split_ifs at h
    cases h
    exact ⟨_, .wait c l _ _, rfl⟩
  | condSignal c l stray =>
    obtain ⟨waiters, eq⟩ := condSignal_fixed h
    exact ⟨_, .signal c l stray waiters, eq⟩
  | setHolder l => cases h; exact ⟨_, .setHolder l, rfl⟩
  | clearHolder l => cases h; exact ⟨_, .clearHolder l, rfl⟩
  | threadExit =>
    simp only [execInstr, threadExit] at h
    exact ⟨_, .exit, (schedule_fixed h).trans rfl⟩
  | initThread p =>
    simp only [execInstr] at h
    split_ifs at h
    cases h
    exact ⟨_, .init p, rfl⟩
  | _ => exact ⟨k, .none rfl, execInstr_fixed h rfl⟩

/-- No instruction changes the scheduler in use, and only two write a holder. -/
theorem execInstr_mlfqs {k k' : Kernel} (h : k.execInstr i = some k') :
    k'.mlfqs = k.mlfqs ∧
      ((∀ l, i ≠ .setHolder l ∧ i ≠ .clearHolder l) → k'.holder = k.holder) := by
  obtain ⟨k1, hw, eq⟩ := execInstr_writes h
  rw [mlfqs_of_fixed eq, holder_of_fixed eq]
  cases hw with
  | setHolder l => exact ⟨rfl, fun ne => absurd rfl (ne l).1⟩
  | clearHolder l => exact ⟨rfl, fun ne => absurd rfl (ne l).2⟩
  | _ => exact ⟨rfl, fun _ => rfl⟩

/-- A timer interrupt ends in the thread it came to, or yields. -/
theorem timer_eq {k k' : Kernel} (h : k.interrupt .timer = some k') :
    ∃ k1 yield, k.timerInterrupt = some (k1, yield) ∧ (k1.threadYield = some k' ∨ k' = k1) := by
  simp only [interrupt] at h
  split at h
  · cases h
  · rename_i k1 yield ticked
    refine ⟨k1, yield, ticked, ?_⟩
    split_ifs at h
    · exact .inl h
    · exact .inr (some.inj h).symm

/-- Interrupts write semaphores only. -/
theorem interrupt_writes {k k' : Kernel} {i : Interrupt} (h : k.interrupt i = some k') :
    k'.fixed = k.fixed ∨ ∃ n v, k'.fixed = (k.setSema (.named n) v).fixed := by
  cases i with
  | timer =>
    obtain ⟨k1, yield, ticked, yields | rfl⟩ := timer_eq h
    · exact .inl ((threadYield_fixed yields).trans (timerInterrupt_fixed ticked))
    · exact .inl (timerInterrupt_fixed ticked)
  | semaTryDown n =>
    obtain ⟨v, eq⟩ := semaTryDown_fixed k (.named n)
    cases h
    exact .inr ⟨n, v, eq⟩
  | semaUp n =>
    obtain ⟨waiters, eq⟩ := semaUp_fixed h
    exact .inr ⟨n, _, eq⟩
  | threadUnblock t =>
    simp only [interrupt] at h
    split_ifs at h
    exact .inl (threadUnblock_fixed h)

theorem interrupt_mlfqs {k k' : Kernel} {i : Interrupt} (h : k.interrupt i = some k') :
    k'.mlfqs = k.mlfqs ∧ k'.holder = k.holder := by
  rcases interrupt_writes h with eq | ⟨n, v, eq⟩ <;>
    rw [mlfqs_of_fixed eq, holder_of_fixed eq] <;> exact ⟨rfl, rfl⟩

/-- What strict priority is about: who is ready, who runs, and the priorities. -/
def ranking (k : Kernel) : List ThreadPtr × ThreadPtr × (ThreadPtr → Int) :=
  (k.readyList, k.current, fun t => (k.thread t).priority)

theorem execInstr_ranking {k k' : Kernel} (h : k.execInstr i = some k')
    (hq : i.ranks = false) : k'.ranking = k.ranking := by
  cases i with
  | semaDown | semaUp | threadYield | threadBlock | threadUnblock | threadSleep | threadExit
  | initThread | threadSetNice | donatePriority | idleLoop => cases hq
  | checkFront =>
    rw [← some.inj h, checkFront]
    split
    · simp [ranking]
    · rfl
  | semaTryDown s =>
    cases h
    simp only [semaTryDown]
    split <;> simp [ranking]
  | create st t p =>
    cases st with
    | unblock => cases hq
    | _ => cases h; simp [ranking]
  | maxDonation e m =>
    cases e with
    | none => cases hq
    | some d => cases h; simp [ranking]
  | pushDonation l =>
    obtain ⟨holder, _, rfl⟩ := map_eq_some_iff.mp h
    simp [ranking]
  | removeDonation l e =>
    cases e with
    | none => rw [← some.inj h]
    | some d => cases h; split <;> simp [ranking]
  | condSignal c l stray =>
    simp only [execInstr] at h
    split_ifs at h
    split at h <;> rw [← some.inj h]
    simp [ranking]
  | createCheck | setBase | condBroadcast | timerSleep =>
    simp only [execInstr, some.injEq] at h
    subst h
    split <;> simp [ranking]
  | lockAcquire | lockTryAcquire | lockRelease | condWait =>
    simp only [execInstr] at h
    split_ifs at h <;> cases h <;> simp [ranking]
  | setWaiting | clearWaiting => cases h; simp [ranking, setWaiting]
  | resume w => rw [← some.inj h]
  | _ => cases h; simp [ranking]

/-- `sleep_list`, the time, and of each thread what neither the scheduler nor the
priorities need: when to wake it, what it waits for and who donates to it. -/
def kept (k : Kernel) :
    List ThreadPtr × Int × (ThreadPtr → Int × Option LockPtr × List ThreadPtr) :=
  (k.sleepList, k.ticks, fun t =>
    ((k.thread t).wakeTick, (k.thread t).waitingLock, (k.thread t).donations))

@[simp] theorem modify_kept (k : Kernel) (t : ThreadPtr) {f : Thread → Thread}
    (eq : ∀ th, (f th).wakeTick = th.wakeTick ∧ (f th).waitingLock = th.waitingLock ∧
      (f th).donations = th.donations) : (k.modify t f).kept = k.kept := by
  have records : ∀ u, ((k.modify t f).thread u).wakeTick = (k.thread u).wakeTick ∧
      ((k.modify t f).thread u).waitingLock = (k.thread u).waitingLock ∧
      ((k.modify t f).thread u).donations = (k.thread u).donations := by
    intro u
    rw [modify_thread]
    split <;> simp_all
  simp only [kept, records]
  rfl

theorem push_kept (k : Kernel) (new : List Instr) : (k.push new).kept = k.kept := by simp

theorem setStatus_kept (k : Kernel) (t : ThreadPtr) (s : Status) :
    (k.setStatus t s).kept = k.kept := by simp

@[simp] theorem readyInsert_kept (k : Kernel) (t : ThreadPtr) : (k.readyInsert t).kept = k.kept :=
  rfl

@[simp] theorem setSema_kept (k : Kernel) (s : SemaPtr) (v : Semaphore) :
    (k.setSema s v).kept = k.kept := rfl

section
variable {k k' : Kernel}

theorem kept_eq (eq : k'.kept = k.kept) : k'.sleepList = k.sleepList ∧ k'.ticks = k.ticks ∧
    ∀ t, (k'.thread t).wakeTick = (k.thread t).wakeTick := by
  simp only [kept, Prod.mk.injEq] at eq
  exact ⟨eq.1, eq.2.1, fun t => congrArg Prod.fst (congrFun eq.2.2 t)⟩

theorem lends_of_kept (eq : k'.kept = k.kept) (t : ThreadPtr) :
    (k'.thread t).waitingLock = (k.thread t).waitingLock ∧
      (k'.thread t).donations = (k.thread t).donations := by
  simp only [kept, Prod.mk.injEq] at eq
  exact Prod.mk.inj (congrArg Prod.snd (congrFun eq.2.2 t))

theorem schedule_kept (h : k.schedule = some k') : k'.kept = k.kept := by
  obtain ⟨next, rest, _, rfl⟩ := schedule_eq h
  exact (rfl : _ = (k.setStatus next .running).kept).trans (by simp)

theorem threadUnblock_kept {t : ThreadPtr} (h : k.threadUnblock t = some k') :
    k'.kept = k.kept := by
  rw [(threadUnblock_eq h).2]; simp

theorem threadYield_kept (h : k.threadYield = some k') : k'.kept = k.kept := by
  simp only [threadYield] at h
  split_ifs at h <;> rw [schedule_kept h] <;> simp

theorem raise_kept (k : Kernel) (t : ThreadPtr) (p : Int) : (k.raise t p).kept = k.kept := by
  rw [raise_eq]
  exact (modify_kept k t (f := fun th => { th with priority := p }) fun _ =>
    ⟨rfl, rfl, rfl⟩).trans rfl

theorem donateLoop_kept (depth : Nat) (t : ThreadPtr) : (donateLoop depth k t).1.kept = k.kept := by
  induction depth generalizing k t with
  | zero => rfl
  | succ depth ih =>
    unfold donateLoop
    split
    · rfl
    · rename_i k1 holder step
      obtain ⟨_, _, _, _, rfl⟩ := donateStep_eq step
      exact (ih ..).trans (raise_kept ..)

theorem checkFront_kept (k : Kernel) : k.checkFront.kept = k.kept := by
  unfold checkFront; split
  · simp
  · rfl

theorem mlfqsTick_kept : k.mlfqsTick.kept = k.kept := by
  have priority : ∀ k t, (mlfqsCalcPriority k t).kept = k.kept := by
    intro k t; unfold mlfqsCalcPriority; split <;> simp
  have cpu : ∀ k t, (mlfqsCalcRecentCpu k t).kept = k.kept := by
    intro k t; unfold mlfqsCalcRecentCpu; split <;> simp
  have all : ∀ k : Kernel, k.mlfqsUpdateAllPriorities.kept = k.kept :=
    fun k => (rfl : _ = (k.threadForeach _).kept).trans (threadForeach_keep kept priority)
  have load : ∀ k : Kernel, k.mlfqsUpdateLoadAvgAndRecentCpu.kept = k.kept :=
    fun k => (threadForeach_keep kept cpu).trans rfl
  simp only [mlfqsTick]
  split_ifs <;> simp [all, load]

theorem semaUp_kept (h : k.semaUp s = some k') : k'.kept = k.kept := by
  simp only [semaUp] at h
  split at h
  · cases h; rfl
  · rw [threadUnblock_kept h]; rfl

theorem execInstr_kept (h : k.execInstr i = some k') (calm : i.stirs = false) :
    k'.kept = k.kept := by
  cases i with
  | threadSleep | initThread | setWaiting | clearWaiting | pushDonation => cases calm
  | semaDown s r =>
    simp only [execInstr, semaDown] at h
    split_ifs at h
    · rw [schedule_kept h]; simp
    · cases h; simp
  | semaTryDown s =>
    cases h
    simp only [semaTryDown]
    split <;> simp
  | semaUp s =>
    obtain ⟨k1, up, rfl⟩ := map_eq_some_iff.mp h
    simpa using semaUp_kept up
  | checkFront => cases h; exact checkFront_kept k
  | threadYield => exact threadYield_kept h
  | threadBlock => rw [schedule_kept h]; simp
  | threadUnblock t =>
    simp only [execInstr] at h
    split_ifs at h
    exact threadUnblock_kept h
  | threadExit => exact (schedule_kept h).trans ((setStatus_kept ..).trans rfl)
  | create st t p =>
    cases st with
    | unblock =>
      obtain ⟨k1, woken, rfl⟩ := map_eq_some_iff.mp h
      simpa using threadUnblock_kept woken
    | allocate => cases h; simp; rfl
    | store tid => cases h; simp
  | maxDonation e m => cases e <;> (cases h; simp)
  | threadSetNice n =>
    rw [← some.inj h, checkFront_kept, mlfqsCalcPriority]; split <;> simp
  | donatePriority => cases h; exact donateLoop_kept _ _
  | removeDonation l e =>
    cases e with
    | none => rw [← some.inj h]
    | some d => cases calm
  | condWait c l =>
    simp only [execInstr] at h
    split_ifs at h
    cases h
    exact (push_kept _ _).trans rfl
  | condSignal c l stray =>
    simp only [execInstr] at h
    split_ifs at h
    split at h <;> rw [← some.inj h]
    exact (push_kept _ _).trans rfl
  | idleStart started => cases h; exact (push_kept _ _).trans rfl
  | idleLoop => rw [schedule_kept h]; simp
  | createCheck | setBase | condBroadcast | timerSleep =>
    simp only [execInstr, some.injEq] at h
    subst h
    split <;> simp
  | lockAcquire | lockTryAcquire | lockRelease =>
    simp only [execInstr] at h
    split_ifs at h <;> cases h <;> simp
  | resume w => rw [← some.inj h]
  | setHolder | clearHolder => cases h; rfl
  | _ => cases h; simp

/-- Each turn of `thread_wake` takes the front of `sleep_list`, until one is not due. -/
theorem wakeLoop_kept {now : Int} {sleepers : List ThreadPtr} (here : k.sleepList = sleepers)
    (h : wakeLoop now sleepers k = some k') :
    k'.kept = (sleepers.dropWhile fun t => (k.thread t).wakeTick ≤ now, k.kept.2) := by
  induction sleepers generalizing k with
  | nil => cases h; simp [kept, here]
  | cons t others ih =>
    unfold wakeLoop at h
    split_ifs at h with late
    · rw [← some.inj h, List.dropWhile_cons_of_neg (by simpa using late), ← here]; rfl
    · obtain ⟨k1, woken, h⟩ := bind_eq_some_iff.mp h
      have eq := threadUnblock_kept woken
      obtain ⟨list, _, ticks⟩ := kept_eq eq
      rw [ih list h, eq, List.dropWhile_cons_of_pos (by simpa using late)]
      simp only [ticks]
      rfl

theorem timerInterrupt_kept {yield : Bool} (h : k.timerInterrupt = some (k', yield)) :
    k'.kept = (k.sleepList.dropWhile fun t => (k.thread t).wakeTick ≤ k.ticks + 1,
      k.ticks + 1, k.kept.2.2) := by
  obtain ⟨k1, woken, eq⟩ := map_eq_some_iff.mp h
  cases eq
  have ticked : ({ k with ticks := k.ticks + 1 }.threadTick).kept =
      { k with ticks := k.ticks + 1 }.kept := by
    simp only [threadTick]
    split
    · exact mlfqsTick_kept.trans rfl
    · rfl
  obtain ⟨list, time, ticks⟩ := kept_eq ticked
  rw [wakeLoop_kept rfl woken, ticked, list, time]
  simp only [ticks]
  rfl

end

end Kernel

end Pintos.Threads
