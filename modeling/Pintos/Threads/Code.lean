import Pintos.Threads.SchedulerRun

/-!
# The code a thread has left to run

`Emits i new` says which code may take the place of instruction `i`: the control
flow of the two files, without the data. Whatever holds of code before every such
replacement and after it holds of the code of every thread in every reachable
state.
-/

namespace Pintos.Threads

open Option

/-- Instruction `i` is replaced by the code `new`. -/
inductive Emits : Instr → List Instr → Prop where
  | resume (w) : Emits (.resume w) []
  | downWaits (s r) : Emits (.semaDown s r) [.semaDown s true]
  | downTakes (s r) : Emits (.semaDown s r) (afterDown s)
  | tryFails (s) : Emits (.semaTryDown s) []
  | tryTakes (s) : Emits (.semaTryDown s) (afterTryDown s)
  | semaUp (s) : Emits (.semaUp s) [.checkFront]
  | frontLower : Emits .checkFront []
  | frontHigher : Emits .checkFront [.threadYield]
  | threadYield : Emits .threadYield [.resume .yielded]
  | threadBlock : Emits .threadBlock [.resume .blocked]
  | threadUnblock (t) : Emits (.threadUnblock t) []
  | timerReturns (n) : Emits (.timerSleep n) []
  | timerSleeps (n w) : Emits (.timerSleep n) [.threadSleep w]
  | threadSleep (w) : Emits (.threadSleep w) [.resume .slept]
  | threadExit : Emits .threadExit []
  | initThread (p t) : Emits (.initThread p) [.lockAcquire tidLock, .create .allocate t p]
  | allocate (t p tid) :
      Emits (.create .allocate t p) [.lockRelease tidLock, .create (.store tid) t p]
  | store (tid t p) : Emits (.create (.store tid) t p) [.create .unblock t p]
  | unblock (t p) : Emits (.create .unblock t p) [.createCheck p]
  | createdLower (p) : Emits (.createCheck p) []
  | createdHigher (p) : Emits (.createCheck p) [.threadYield]
  | baseIgnored (p) : Emits (.setBase p) []
  | baseSet (p) : Emits (.setBase p) [.updatePriority, .checkFront]
  | updatePriority (e m) : Emits .updatePriority [.maxDonation e m]
  | maxDone (m) : Emits (.maxDonation none m) []
  | maxNext (d m e m') : Emits (.maxDonation (some d) m) [.maxDonation e m']
  | niceStays (n) : Emits (.threadSetNice n) []
  | niceYields (n) : Emits (.threadSetNice n) [.threadYield]
  | acquireDonates (l) : Emits (.lockAcquire l)
      [.setWaiting l, .pushDonation l, .donatePriority, .semaDown (.ofLock l) false]
  | acquireDirect (l) : Emits (.lockAcquire l) [.semaDown (.ofLock l) false]
  | setWaiting (l) : Emits (.setWaiting l) []
  | pushDonation (l) : Emits (.pushDonation l) []
  | donatePriority : Emits .donatePriority []
  | clearWaiting : Emits .clearWaiting []
  | setHolder (l) : Emits (.setHolder l) []
  | lockTryAcquire (l) : Emits (.lockTryAcquire l) [.semaTryDown (.ofLock l)]
  | releaseDonations (l) : Emits (.lockRelease l)
      [.clearHolder l, .removeDonations l, .updatePriority, .semaUp (.ofLock l)]
  | releaseDirect (l) : Emits (.lockRelease l) [.clearHolder l, .semaUp (.ofLock l)]
  | clearHolder (l) : Emits (.clearHolder l) []
  | removeDonations (l e) : Emits (.removeDonations l) [.removeDonation l e]
  | removeDone (l) : Emits (.removeDonation l none) []
  | removeNext (l d e) : Emits (.removeDonation l (some d)) [.removeDonation l e]
  | condWait (c l t) : Emits (.condWait c l)
      [.lockRelease l, .semaDown (.ofWaiter t) false, .lockAcquire l]
  | signalNone (c l stray) : Emits (.condSignal c l stray) []
  | signalOne (c l stray t) : Emits (.condSignal c l stray) [.semaUp (.ofWaiter t)]
  | broadcastDone (c l stray) : Emits (.condBroadcast c l stray) []
  | broadcastNext (c l stray) : Emits (.condBroadcast c l stray)
      [.condSignal c l stray, .condBroadcast c l stray]
  | idleStart (s) : Emits (.idleStart s) [.semaUp (.named s), .idleLoop]
  | idleLoop : Emits .idleLoop [.resume .idled, .idleLoop]

/-- A relation between each instruction and those below it survives a replacement
when the new instructions stand in it to whatever the old one did. -/
theorem pairwise_replace {R : Instr → Instr → Prop} {i : Instr} {new rest : List Instr}
    (code : (i :: rest).Pairwise R) (hi : new.Pairwise R)
    (inherit : ∀ a ∈ new, ∀ b, R i b → R a b) : (new ++ rest).Pairwise R := by
  obtain ⟨above, below⟩ := List.pairwise_cons.mp code
  exact List.pairwise_append.mpr ⟨hi, below, fun a ha b hb => inherit a ha b (above b hb)⟩

/-- What one event does to the code of the running thread. -/
inductive Flows : List Instr → List Instr → Prop where
  | exec {i : Instr} {new : List Instr} (rest : List Instr) :
      Emits i new → Flows (i :: rest) (new ++ rest)
  | call (c : Call) : Flows [] c.code
  | stay (code : List Instr) : Flows code code
  | preempt (code : List Instr) : Flows code (.resume .yielded :: code)

namespace Kernel

/-- The code of the threads after a step: the running thread's is `code`, a thread
just created waits to start, and the others go on where they were. -/
@[grind cases] structure Recoded (k k' : Kernel) (code : List Instr) : Prop where
  self : (k'.thread k.current).stack = code
  others : ∀ t, t ≠ k.current → (k'.thread t).stack = (k.thread t).stack ∨
    t = k.created ∧ (k'.thread t).stack = [.resume .created]

theorem schedule_stack {k k' : Kernel} (h : k.schedule = some k') (t : ThreadPtr) :
    (k'.thread t).stack = (k.thread t).stack := by
  obtain ⟨next, rest, _, rfl⟩ := schedule_eq h
  simp [switchTo]

theorem threadUnblock_stack {k k' : Kernel} {u : ThreadPtr} (h : k.threadUnblock u = some k')
    (t : ThreadPtr) : (k'.thread t).stack = (k.thread t).stack := by
  rw [(threadUnblock_eq h).2]; simp

theorem semaUp_stack {k k' : Kernel} {s : SemaPtr} (h : k.semaUp s = some k') (t : ThreadPtr) :
    (k'.thread t).stack = (k.thread t).stack := by
  simp only [semaUp] at h
  split at h
  · cases h; rfl
  · rw [threadUnblock_stack h]; rfl

theorem semaUp_current {k k' : Kernel} {s : SemaPtr} (h : k.semaUp s = some k') :
    k'.current = k.current := by
  simp only [semaUp] at h
  split at h
  · cases h; rfl
  · rw [(threadUnblock_eq h).2]; rfl

theorem threadYield_stack {k k' : Kernel} (h : k.threadYield = some k') (t : ThreadPtr) :
    (k'.thread t).stack = if t = k.current then .resume .yielded :: (k.thread t).stack
      else (k.thread t).stack := by
  simp only [threadYield] at h
  split_ifs at h <;> rw [schedule_stack h] <;> split <;> simp_all

theorem donateLoop_stack (depth : Nat) (k : Kernel) (u t : ThreadPtr) :
    ((donateLoop depth k u).1.thread t).stack = (k.thread t).stack := by
  induction depth generalizing k u with
  | zero => rfl
  | succ depth ih =>
    unfold donateLoop
    split
    · rfl
    · rename_i k1 holder step
      obtain ⟨_, _, _, _, rfl⟩ := donateStep_eq step
      rw [ih]; simp

section
variable {k k' : Kernel} {i : Instr} {rest : List Instr}

theorem Recoded.of_schedule {k1 : Kernel} {code : List Instr} (h : k1.schedule = some k')
    (self : (k1.thread k.current).stack = code)
    (others : ∀ t, t ≠ k.current → (k1.thread t).stack = (k.thread t).stack) :
    Recoded k k' code where
  self := (schedule_stack h _).trans self
  others t ne := .inl ((schedule_stack h t).trans (others t ne))

theorem Recoded.pushed (new : List Instr) :
    Recoded k ((k.setStack k.current rest).push new) (new ++ rest) where
  self := by simp
  others := by simp +contextual

/-- What is left after an instruction that only looks at the front of `ready_list`. -/
theorem checkFront_recoded (k1 : Kernel) (current : k1.current = k.current)
    (self : (k1.thread k.current).stack = rest)
    (others : ∀ t, t ≠ k.current → (k1.thread t).stack = (k.thread t).stack) :
    Recoded k k1.checkFront rest ∨ Recoded k k1.checkFront (.threadYield :: rest) := by
  unfold checkFront
  split
  · refine .inr ⟨by simp [current, self], fun t ne => .inl ?_⟩
    simp [current, ne, others t ne]
  · exact .inl ⟨self, fun t ne => .inl (others t ne)⟩

/-- One instruction replaced by the code it stands for, on the stack of the running thread. -/
theorem execInstr_emits (hf : k.current ≠ k.created)
    (h : (k.setStack k.current rest).execInstr i = some k') :
    ∃ new, Emits i new ∧ Recoded k k' (new ++ rest) := by
  have popped : ∀ t, t ≠ k.current →
      ((k.setStack k.current rest).thread t).stack = (k.thread t).stack := by
    intro t ne; simp [ne]
  have top : ((k.setStack k.current rest).thread k.current).stack = rest := by simp
  cases i with
  | semaDown s r =>
    simp only [execInstr, semaDown] at h
    split_ifs at h
    · exact ⟨_, .downWaits s r, .of_schedule h (by simp) (by simp +contextual)⟩
    · cases h
      exact ⟨_, .downTakes s r, by simp, by simp +contextual⟩
  | semaTryDown s =>
    simp only [execInstr, semaTryDown, some.injEq] at h
    subst h
    split
    · exact ⟨_, .tryTakes s, by simp, by simp +contextual⟩
    · exact ⟨_, .tryFails s, by simp, by simp +contextual⟩
  | semaUp s =>
    obtain ⟨k1, up, rfl⟩ := map_eq_some_iff.mp h
    have hp : k1.current = k.current := (semaUp_current up).trans rfl
    have stack := semaUp_stack up
    exact ⟨_, .semaUp s, by simp [hp, stack], by simp +contextual [hp, stack]⟩
  | checkFront =>
    cases h
    rcases checkFront_recoded (k := k) (k.setStack k.current rest) rfl top popped with low | high
    · exact ⟨_, .frontLower, low⟩
    · exact ⟨_, .frontHigher, high⟩
  | threadYield =>
    refine ⟨_, .threadYield, ?_, fun t ne => .inl ?_⟩
    · rw [threadYield_stack h]; simp
    · rw [threadYield_stack h]; simp [ne]
  | threadBlock => exact ⟨_, .threadBlock, .of_schedule h (by simp) (by simp +contextual)⟩
  | threadUnblock t =>
    simp only [execInstr] at h
    split_ifs at h
    have stack := threadUnblock_stack h
    exact ⟨_, .threadUnblock t, by simp [stack], by simp +contextual [stack]⟩
  | timerSleep n =>
    simp only [execInstr, some.injEq] at h
    subst h
    split
    · exact ⟨_, .timerReturns n, by simp, by simp +contextual⟩
    · exact ⟨_, .timerSleeps n _, .pushed _⟩
  | threadSleep w => exact ⟨_, .threadSleep w, .of_schedule h (by simp) (by simp +contextual)⟩
  | threadExit => exact ⟨_, .threadExit, .of_schedule h (by simp) (by simp +contextual)⟩
  | initThread p =>
    simp only [execInstr] at h
    split_ifs at h
    cases h
    refine ⟨_, .initThread p k.created, by simp [modify_thread, hf], fun t ne => ?_⟩
    by_cases new : t = k.created
    · exact .inr ⟨new, by simp [modify_thread, new, hf.symm, initThread]⟩
    · exact .inl (by simp [modify_thread, ne, new])
  | create st t p =>
    cases st with
    | allocate =>
      cases h
      exact ⟨_, .allocate t p k.nextTid, by simp; rfl, by simp +contextual⟩
    | store tid =>
      cases h
      exact ⟨_, .store tid t p, by simp, by simp +contextual⟩
    | unblock =>
      obtain ⟨k1, woken, rfl⟩ := map_eq_some_iff.mp h
      have hp : k1.current = k.current := by rw [(threadUnblock_eq woken).2]; rfl
      have stack := threadUnblock_stack woken
      exact ⟨_, .unblock t p, by simp [hp, stack], by simp +contextual [hp, stack]⟩
  | createCheck p =>
    simp only [execInstr, some.injEq] at h
    subst h
    split
    · exact ⟨_, .createdHigher p, by simp, by simp +contextual⟩
    · exact ⟨_, .createdLower p, by simp, by simp +contextual⟩
  | setBase p =>
    simp only [execInstr, some.injEq] at h
    subst h
    split
    · exact ⟨_, .baseIgnored p, by simp, by simp +contextual⟩
    · exact ⟨_, .baseSet p, by simp, by simp +contextual⟩
  | updatePriority =>
    cases h
    exact ⟨_, .updatePriority _ _, .pushed _⟩
  | maxDonation e m =>
    cases e with
    | none => cases h; exact ⟨_, .maxDone m, by simp, by simp +contextual⟩
    | some d => cases h; exact ⟨_, .maxNext d m _ _, .pushed _⟩
  | threadSetNice n =>
    cases h
    have front := @checkFront_recoded k rest <|
      ((k.setStack k.current rest).modify k.current fun th =>
        { th with nice := n }).mlfqsCalcPriority k.current
    rcases front (by unfold mlfqsCalcPriority; split <;> rfl)
        (by unfold mlfqsCalcPriority; split <;> simp)
        (by unfold mlfqsCalcPriority; split <;> simp +contextual) with low | high
    · exact ⟨_, .niceStays n, low⟩
    · exact ⟨_, .niceYields n, high⟩
  | lockAcquire l =>
    simp only [execInstr] at h
    split_ifs at h <;> cases h
    · exact ⟨_, .acquireDonates l, by simp, by simp +contextual⟩
    · exact ⟨_, .acquireDirect l, by simp, by simp +contextual⟩
  | pushDonation l =>
    obtain ⟨holder, _, rfl⟩ := map_eq_some_iff.mp h
    exact ⟨_, .pushDonation l, by simp, by simp +contextual⟩
  | donatePriority =>
    cases h
    refine ⟨_, .donatePriority, ?_, fun t ne => .inl ?_⟩
    · exact (donateLoop_stack _ _ _ _).trans top
    · exact (donateLoop_stack _ _ _ _).trans (popped t ne)
  | lockTryAcquire l =>
    simp only [execInstr] at h
    split_ifs at h
    cases h
    exact ⟨_, .lockTryAcquire l, by simp, by simp +contextual⟩
  | lockRelease l =>
    simp only [execInstr] at h
    split_ifs at h <;> cases h
    · exact ⟨_, .releaseDirect l, by simp, by simp +contextual⟩
    · exact ⟨_, .releaseDonations l, by simp, by simp +contextual⟩
  | removeDonations l =>
    cases h
    exact ⟨_, .removeDonations l _, .pushed _⟩
  | removeDonation l e =>
    cases e with
    | none => cases h; exact ⟨_, .removeDone l, by simp, by simp +contextual⟩
    | some d =>
      simp only [execInstr, some.injEq] at h
      subst h
      refine ⟨_, .removeNext l d (listNext (k.thread k.current).donations d), ?_,
        ?_⟩ <;> split <;> simp +contextual
  | condWait c l =>
    simp only [execInstr] at h
    split_ifs at h
    cases h
    exact ⟨_, .condWait c l k.current, by simp, by simp +contextual⟩
  | condSignal c l stray =>
    simp only [execInstr] at h
    split_ifs at h
    split at h <;> cases h
    · exact ⟨_, .signalNone c l stray, by simp, by simp +contextual⟩
    · rename_i e _ _
      exact ⟨_, .signalOne c l stray e, by simp, by simp +contextual⟩
  | condBroadcast c l stray =>
    simp only [execInstr, some.injEq] at h
    subst h
    split
    · exact ⟨_, .broadcastDone c l stray, by simp, by simp +contextual⟩
    · exact ⟨_, .broadcastNext c l stray, by simp, by simp +contextual⟩
  | idleStart s =>
    cases h
    exact ⟨_, .idleStart s, by simp, by simp +contextual⟩
  | idleLoop => exact ⟨_, .idleLoop, .of_schedule h (by simp) (by simp +contextual)⟩
  | setWaiting l =>
    cases h
    exact ⟨_, .setWaiting l, by simp [setWaiting], by simp +contextual [setWaiting]⟩
  | clearWaiting =>
    cases h
    exact ⟨_, .clearWaiting, by simp [setWaiting], by simp +contextual [setWaiting]⟩
  | resume w =>
    cases h
    exact ⟨_, .resume w, by simp, by simp +contextual⟩
  | setHolder l =>
    cases h
    exact ⟨_, .setHolder l, by simp, by simp +contextual⟩
  | clearHolder l =>
    cases h
    exact ⟨_, .clearHolder l, by simp, by simp +contextual⟩

theorem Scheduled.emits (inv : Scheduled k)
    (h : (k.setStack k.current rest).execInstr i = some k') :
    ∃ new, Emits i new ∧ Recoded k k' (new ++ rest) :=
  execInstr_emits (Nat.ne_of_lt (inv.tidy.born inv.up)) h

end

theorem wakeLoop_stack {now : Int} {sleepers : List ThreadPtr} {k k' : Kernel}
    (h : wakeLoop now sleepers k = some k') (t : ThreadPtr) :
    (k'.thread t).stack = (k.thread t).stack ∧ k'.current = k.current := by
  induction sleepers generalizing k with
  | nil => cases h; exact ⟨rfl, rfl⟩
  | cons u others ih =>
    unfold wakeLoop at h
    split_ifs at h
    · cases h; exact ⟨rfl, rfl⟩
    · obtain ⟨k1, woken, h⟩ := bind_eq_some_iff.mp h
      have hp : k1.current = k.current := by rw [(threadUnblock_eq woken).2]; rfl
      rw [(ih h).1, (ih h).2, threadUnblock_stack woken]
      exact ⟨rfl, hp⟩

theorem timerInterrupt_stack {k k' : Kernel} {yield : Bool}
    (h : k.timerInterrupt = some (k', yield)) :
    (∀ t, (k'.thread t).stack = (k.thread t).stack) ∧ k'.current = k.current := by
  obtain ⟨k1, woken, eq⟩ := map_eq_some_iff.mp h
  cases eq
  have ranked := threadTick_ranked (k := { k with ticks := k.ticks + 1 })
  refine ⟨fun t => ?_, ?_⟩
  · rw [(wakeLoop_stack woken t).1, ranked.stack]
  · rw [(wakeLoop_stack woken k.current).2, ranked.current]

theorem interrupt_recoded {k k' : Kernel} {i : Interrupt} (h : k.interrupt i = some k') :
    Recoded k k' (k.thread k.current).stack ∨
      Recoded k k' (.resume .yielded :: (k.thread k.current).stack) := by
  cases i with
  | timer =>
    obtain ⟨k1, yield, ticked, yields⟩ := timer_eq h
    obtain ⟨stack, hp⟩ := timerInterrupt_stack ticked
    rcases yields with yields | rfl
    · refine .inr ⟨?_, fun t ne => .inl ?_⟩
      · rw [threadYield_stack yields]; simp [hp, stack]
      · rw [threadYield_stack yields]; simp [hp, stack, ne]
    · exact .inl ⟨stack _, fun t _ => .inl (stack t)⟩
  | semaTryDown n =>
    obtain ⟨value, eq⟩ := semaTryDown_named k n
    rw [← some.inj h, eq]
    exact .inl ⟨rfl, fun _ _ => .inl rfl⟩
  | semaUp n => exact .inl ⟨semaUp_stack h _, fun t _ => .inl (semaUp_stack h t)⟩
  | threadUnblock u =>
    simp only [interrupt] at h
    split_ifs at h
    exact .inl ⟨threadUnblock_stack h _, fun t _ => .inl (threadUnblock_stack h t)⟩

theorem step_flows {k k' : Kernel} {e : Event} (inv : Scheduled k) (h : k.step e = some k') :
    ∃ code, Flows (k.thread k.current).stack code ∧ Recoded k k' code := by
  cases e with
  | call c =>
    simp only [Kernel.step] at h
    split_ifs at h with free
    have empty := stack_eq_nil free
    rw [← some.inj h, empty]
    exact ⟨_, .call c, by simp [empty], by simp +contextual⟩
  | exec =>
    obtain ⟨i, rest, old, h⟩ := exec_eq h
    obtain ⟨new, he, hr⟩ := inv.emits h
    rw [old]
    exact ⟨_, .exec rest he, hr⟩
  | interrupt i =>
    simp only [Kernel.step] at h
    split_ifs at h
    rcases interrupt_recoded h with stays | yields
    · exact ⟨_, .stay _, stays⟩
    · exact ⟨_, .preempt _, yields⟩

theorem scheduled_run {mlfqs : Bool} {value : Nat → Nat} {history : List Event} {k : Kernel}
    {ok : Kernel → Event → Prop}
    (run : Machine.Run step ok (boot mlfqs value) history k) : Scheduled k :=
  run.invariant (scheduled_boot mlfqs value) fun _ _ _ inv _ h => inv.step h

/-- Properties of code are kept along runs when every replacement keeps them. -/
theorem Flows.invariant {P : List Instr → Prop} {k k' : Kernel} {e : Event} (inv : Scheduled k)
    (flows : ∀ code code', P code → Flows code code' → P code') (start : P [.resume .created])
    (was : ∀ t, P (k.thread t).stack) (h : k.step e = some k') (t : ThreadPtr) :
    P (k'.thread t).stack := by
  obtain ⟨code, flow, hr⟩ := step_flows inv h
  by_cases hp : t = k.current
  · rw [hp, hr.self]; exact flows _ _ (was _) flow
  · grind

end Kernel

end Pintos.Threads
