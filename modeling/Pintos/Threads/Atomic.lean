import Pintos.Threads.Code

/-!
# Lock operations without preemption

`lock_acquire`, `lock_try_acquire`, `lock_release` and `thread_set_priority` as
they run when nothing interrupts them: each call, and each continuation of a
call that had blocked, is one step. Threads also yield, block and are unblocked
between these calls, so any order of calls can come about. Every step of this
machine is a run of the machine of `Pintos.Threads.Preemption`.
-/

namespace Pintos.Threads

open List Option

inductive Operation where
  | acquire (l : LockPtr)
  | tryAcquire (l : LockPtr)
  | release (l : LockPtr)
  | setPriority (priority : Int)
  | yield
  | block
  | unblock (t : ThreadPtr)
  /-- A thread that has got the CPU back goes on where it left it. -/
  | resume

namespace Kernel

/-- The end of `lock_acquire` from one turn of the loop of `sema_down` on. -/
def acquireTurn (k : Kernel) (l : LockPtr) : Option Kernel :=
  let v := k.sema (.ofLock l)
  if v.value = 0 then k.semaDown (.ofLock l)
  else
    let k := k.setSema (.ofLock l) { v with value := v.value - 1 }
    some ((k.setWaiting k.current none).setHolder l (some k.current))

/-- What `lock_acquire` writes down before it donates. -/
def register (k : Kernel) (l : LockPtr) : Option Kernel :=
  (k.setWaiting k.current (some l)).pushDonation k.current l

def lockAcquire (k : Kernel) (l : LockPtr) : Option Kernel :=
  if k.holder l = some k.current then none
  else if !k.mlfqs ∧ k.holder l ≠ none then
    (k.register l).bind fun k => (k.donatePriority k.current).acquireTurn l
  else k.acquireTurn l

def lockTryAcquire (k : Kernel) (l : LockPtr) : Option Kernel :=
  let v := k.sema (.ofLock l)
  if k.holder l = some k.current then none
  else if v.value > 0 then
    some ((k.setSema (.ofLock l) { v with value := v.value - 1 }).setHolder l (some k.current))
  else some k

/-- The reading of the front of `ready_list`, and the yield. -/
def yieldToFront (k : Kernel) : Option Kernel :=
  if k.frontIsGreater then k.threadYield else some k

def lockRelease (k : Kernel) (l : LockPtr) : Option Kernel :=
  if k.holder l = some k.current then
    let k := k.setHolder l none
    let k := if k.mlfqs then k
      else (k.removeDonationsForLock k.current l).updatePriorityAfterRelease k.current
    (k.semaUp (.ofLock l)).bind yieldToFront
  else none

def threadSetPriority (k : Kernel) (p : Int) : Option Kernel :=
  if k.mlfqs then some k
  else
    let k := k.modify k.current fun th => { th with basePriority := p }
    (k.updatePriorityAfterRelease k.current).yieldToFront

def resume (k : Kernel) : Option Kernel :=
  match (k.thread k.current).stack with
  | .resume _ :: rest => some (k.setStack k.current rest)
  | [.semaDown (.ofLock l) true] => (k.setStack k.current []).acquireTurn l
  | [.idleLoop] => ((k.setStack k.current []).push [.resume .idled, .idleLoop]).threadBlock
  | _ => none

def operate (k : Kernel) : Operation → Option Kernel
  | .acquire l => if k.inThreadCode then k.lockAcquire l else none
  | .tryAcquire l => if k.inThreadCode then k.lockTryAcquire l else none
  | .release l => if k.inThreadCode then k.lockRelease l else none
  | .setPriority p => if k.inThreadCode then k.threadSetPriority p else none
  | .yield => if k.inThreadCode then k.threadYield else none
  | .block => if k.inThreadCode then (k.push [.resume .blocked]).threadBlock else none
  | .unblock t => if k.interruptsOn ∧ k.parked t then k.threadUnblock t else none
  | .resume => k.resume

/-! ## Running the code of one thread -/

def withCode (k : Kernel) (code : List Instr) : Kernel := k.setStack k.current code

inductive Executes : Kernel → Kernel → Prop where
  | done {k : Kernel} : Executes k k
  | next {k k' k'' : Kernel} : k.exec = some k' → Executes k' k'' → Executes k k''

section
variable (k : Kernel) (code rest : List Instr) {f : Thread → Thread}

theorem modify_modify (t : ThreadPtr) (f g : Thread → Thread) :
    (k.modify t f).modify t g = k.modify t fun th => g (f th) := by
  simp [modify]

theorem modify_id (t : ThreadPtr) (eq : f (k.thread t) = k.thread t) : k.modify t f = k := by
  simp [modify, eq]

theorem withCode_withCode : (k.withCode code).withCode rest = k.withCode rest := by
  simp only [withCode, setStack, modify_current, modify_modify]

@[simp] theorem withCode_current : (k.withCode code).current = k.current := rfl

@[simp] theorem withCode_stack : ((k.withCode code).thread k.current).stack = code := by
  simp [withCode]

theorem withCode_of_stack (hi : (k.thread k.current).stack = code) : k.withCode code = k := by
  simp only [withCode, setStack]
  apply modify_id
  simp only [← hi]

theorem withCode_push : (k.withCode rest).push code = k.withCode (code ++ rest) := by
  have stack : ((k.withCode rest).thread k.current).stack = rest := withCode_stack k rest
  simp only [push, withCode_current, stack]
  exact withCode_withCode k rest (code ++ rest)

variable {k} in
theorem push_of_idle {code : List Instr} (hi : (k.thread k.current).stack = []) :
    k.push code = k.withCode code := by
  simp only [push, hi, append_nil, withCode]

theorem exec_withCode (i : Instr) :
    (k.withCode (i :: rest)).exec = (k.withCode rest).execInstr i := by
  have stack : ((k.withCode (i :: rest)).thread k.current).stack = i :: rest :=
    withCode_stack k (i :: rest)
  simp only [exec, withCode_current, stack]
  rw [show (k.withCode (i :: rest)).setStack k.current rest = k.withCode rest from
    withCode_withCode k (i :: rest) rest]

/-- Writing a field other than the code does not depend on the code. -/
theorem withCode_modify (t : ThreadPtr)
    (ne : ∀ th is, f { th with stack := is } = { f th with stack := is }) :
    (k.withCode code).modify t f = (k.modify t f).withCode code := by
  by_cases own : t = k.current
  · subst own
    have eq : (fun th => f { th with stack := code }) = fun th => { f th with stack := code } :=
      funext fun th => ne th code
    simp only [withCode, setStack, modify_current, modify_modify, eq]
  · simp only [withCode, setStack, modify, Function.update_of_ne own,
      Function.update_of_ne (Ne.symm own)]
    rw [Function.update_comm own]

theorem withCode_setWaiting (l : Option LockPtr) :
    (k.withCode code).setWaiting k.current l = (k.setWaiting k.current l).withCode code :=
  withCode_modify k code k.current fun _ _ => rfl

theorem withCode_raise (h : ThreadPtr) (p : Int) :
    (k.withCode code).raise h p = (k.raise h p).withCode code := by
  have hm := withCode_modify k code h (f := fun th => { th with priority := p }) fun _ _ => rfl
  simp only [raise, hm]
  have eq : ∀ k : Kernel, (k.withCode code).threadPriorityGreater = k.threadPriorityGreater :=
    fun k => by simp [withCode]
  simp only [eq]
  by_cases ready : ((k.modify h fun th => { th with priority := p }).thread h).status = .ready
  · have ready' : (((k.modify h fun th => { th with priority := p }).withCode code).thread
        h).status = .ready := by simpa [withCode] using ready
    simp only [if_pos ready, if_pos ready']
    rfl
  · have ready' : ¬ (((k.modify h fun th => { th with priority := p }).withCode code).thread
        h).status = .ready := by simpa [withCode] using ready
    simp only [if_neg ready, if_neg ready']

theorem withCode_donateStep (t : ThreadPtr) : (k.withCode code).donateStep t =
    (k.donateStep t).map fun p => (p.1.withCode code, p.2) := by
  have waiting : ((k.withCode code).thread t).waitingLock = (k.thread t).waitingLock := by
    simp [withCode]
  have priority : ∀ u, ((k.withCode code).thread u).priority = (k.thread u).priority := by
    simp [withCode]
  unfold donateStep
  rw [waiting]
  cases (k.thread t).waitingLock with
  | none => rfl
  | some l =>
    have holder : (k.withCode code).holder l = k.holder l := rfl
    simp only [holder]
    cases k.holder l with
    | none => rfl
    | some h =>
      simp only [priority, withCode_raise]
      split <;> rfl

end

theorem donateLoop_current (depth : Nat) (k : Kernel) (t : ThreadPtr) :
    (donateLoop depth k t).1.current = k.current := by
  induction depth generalizing k t with
  | zero => rfl
  | succ depth ih =>
    unfold donateLoop
    split
    · rfl
    · rename_i k1 h step
      obtain ⟨l, -, -, -, rfl⟩ := donateStep_eq step
      rw [ih, raise_current]

theorem withCode_donateLoop (code : List Instr) (depth : Nat) : ∀ (k : Kernel) (t : ThreadPtr),
    (donateLoop depth (k.withCode code) t).1 = (donateLoop depth k t).1.withCode code := by
  induction depth with
  | zero => exact fun _ _ => rfl
  | succ depth ih =>
    intro k t
    unfold donateLoop
    rw [withCode_donateStep]
    cases step : k.donateStep t with
    | none => rfl
    | some p => exact ih p.1 p.2

namespace Executes

variable {k' k'' : Kernel}

theorem trans {k : Kernel} (first : Executes k k') (second : Executes k' k'') : Executes k k'' := by
  induction first with
  | done => exact second
  | next step _ ih => exact .next step (ih second)

/-- One instruction of a thread whose code is known. -/
theorem instr {k : Kernel} {i : Instr} {rest : List Instr}
    (step : (k.withCode rest).execInstr i = some k') (later : Executes k' k'') :
    Executes (k.withCode (i :: rest)) k'' :=
  .next ((exec_withCode k rest i).trans step) later

theorem run {k : Kernel} (execs : Executes k k') :
    ∃ history, Machine.Run step Machine.Free k history k' := by
  induction execs with
  | done => exact ⟨[], .start⟩
  | next ran _ ih =>
    obtain ⟨history, later⟩ := ih
    have first : Machine.Run step Machine.Free _ [.exec] _ := .next Event.exec .start trivial ran
    exact ⟨_, first.append later⟩

end Executes

theorem listNext_append {passed todo : List ThreadPtr} {d : ThreadPtr}
    (distinct : (passed ++ d :: todo).Nodup) : listNext (passed ++ d :: todo) d = todo.head? := by
  have was : ∀ e ∈ passed, decide (e ≠ d) = true := by grind
  rw [listNext, dropWhile_append_of_pos was]
  simp

theorem donations_withCode {k : Kernel} {code : List Instr} {t : ThreadPtr} :
    ((k.withCode code).thread t).donations = (k.thread t).donations := by
  simp [withCode]

variable {l : LockPtr}

/-- The loop of `remove_donations_for_lock`, `kept` being the donors it has passed. -/
theorem Executes.removeDonation (rest : List Instr) (todo : List ThreadPtr) :
    ∀ {k : Kernel} {passed : List ThreadPtr}, (k.thread k.current).donations = passed ++ todo →
      (passed ++ todo).Nodup →
      Executes (k.withCode (.removeDonation l todo.head? :: rest))
        ((k.modify k.current fun th => { th with
          donations := passed ++ todo.filter fun d => (k.thread d).waitingLock ≠ some l }).withCode
            rest) := by
  induction todo with
  | nil =>
    intro k passed hl _
    refine .instr rfl ?_
    rw [modify_id]
    · exact .done
    · simp [← hl]
  | cons d todo ih =>
    intro k passed hl distinct
    have next := listNext_append distinct
    by_cases waiting : (k.thread d).waitingLock = some l
    · let k1 := k.modify k.current fun th => { th with donations := th.donations.erase d }
      have listed1 : (k1.thread k1.current).donations = passed ++ todo := by
        have ne : d ∉ passed := fun mem =>
          (nodup_append.mp distinct).2.2 d mem d (.head _) rfl
        simp [k1, hl, erase_append_right _ ne]
      have ran : (k.withCode rest).execInstr (.removeDonation l (some d)) =
          some (k1.withCode (.removeDonation l todo.head? :: rest)) := by
        have waiting' : ((k.withCode rest).thread d).waitingLock = some l := by
          simpa [withCode] using waiting
        simp only [execInstr, withCode_current, donations_withCode, hl, next, if_pos waiting']
        rw [withCode_modify _ _ _ fun _ _ => rfl]
        exact congrArg some (withCode_push k1 _ rest)
      have distinct1 : (passed ++ todo).Nodup := by grind
      have later := ih listed1 distinct1
      refine .instr ran ?_
      have eq : (d :: todo).filter (fun d => decide ((k.thread d).waitingLock ≠ some l)) =
          todo.filter fun d => decide ((k1.thread d).waitingLock ≠ some l) := by
        simp [k1, waiting]
      rw [eq]
      have merged : k1.modify k1.current (fun th => { th with
            donations := passed ++ todo.filter fun d => (k1.thread d).waitingLock ≠ some l }) =
          k.modify k.current fun th => { th with
            donations := passed ++ todo.filter fun d => (k1.thread d).waitingLock ≠ some l } :=
        modify_modify k k.current _ _
      rwa [← merged]
    · have ran : (k.withCode rest).execInstr (.removeDonation l (some d)) =
          some (k.withCode (.removeDonation l todo.head? :: rest)) := by
        have waiting' : ¬ ((k.withCode rest).thread d).waitingLock = some l := by
          simpa [withCode] using waiting
        simp only [execInstr, withCode_current, donations_withCode, hl, next, if_neg waiting']
        exact congrArg some (withCode_push k _ rest)
      have shifted : passed ++ d :: todo = (passed ++ [d]) ++ todo := by simp
      have later := ih (hl.trans shifted) (shifted ▸ distinct)
      refine .instr ran ?_
      simpa [waiting] using later

/-- The loop of `update_priority_after_release`. -/
theorem Executes.maxDonation {rest : List Instr} (todo : List ThreadPtr) :
    ∀ {k : Kernel} {passed : List ThreadPtr} {m : Int},
      (k.thread k.current).donations = passed ++ todo → (passed ++ todo).Nodup →
      Executes (k.withCode (.maxDonation todo.head? m :: rest))
        ((k.modify k.current fun th => { th with
          priority := todo.foldl (fun m d => max m (k.thread d).priority) m }).withCode rest) := by
  induction todo with
  | nil =>
    intro k passed m _ _
    exact .instr (congrArg some (withCode_modify k rest k.current fun _ _ => rfl)) .done
  | cons d todo ih =>
    intro k passed m hl distinct
    have next := listNext_append distinct
    have ran : (k.withCode rest).execInstr (.maxDonation (some d) m) =
        some (k.withCode (.maxDonation todo.head? (max m (k.thread d).priority) :: rest)) := by
      have priority : ((k.withCode rest).thread d).priority = (k.thread d).priority := by
        simp [withCode]
      simp only [execInstr, withCode_current, donations_withCode, hl, next, priority]
      exact congrArg some (withCode_push k _ rest)
    have shifted : passed ++ d :: todo = (passed ++ [d]) ++ todo := by simp
    exact .instr ran (ih (hl.trans shifted) (shifted ▸ distinct))

theorem Executes.updatePriority {k : Kernel} {rest : List Instr}
    (distinct : (k.thread k.current).donations.Nodup) :
    Executes (k.withCode (.updatePriority :: rest))
      ((k.updatePriorityAfterRelease k.current).withCode rest) := by
  have ran : (k.withCode rest).execInstr .updatePriority =
      some (k.withCode (.maxDonation (k.thread k.current).donations.head?
        (k.thread k.current).basePriority :: rest)) := by
    have base : ((k.withCode rest).thread k.current).basePriority =
        (k.thread k.current).basePriority := by simp [withCode]
    simp only [execInstr, withCode_current, donations_withCode, base]
    exact congrArg some (withCode_push k _ rest)
  exact .instr ran (Executes.maxDonation _ (nil_append _).symm distinct)

theorem Executes.removeDonations {k : Kernel} {rest : List Instr}
    (distinct : (k.thread k.current).donations.Nodup) :
    Executes (k.withCode (.removeDonations l :: rest))
      ((k.removeDonationsForLock k.current l).withCode rest) := by
  have ran : (k.withCode rest).execInstr (.removeDonations l) =
      some (k.withCode (.removeDonation l (k.thread k.current).donations.head? :: rest)) := by
    simp only [execInstr, withCode_current, donations_withCode]
    exact congrArg some (withCode_push k _ rest)
  refine .instr ran ?_
  simpa only [nil_append, removeDonationsForLock, modify] using
    Executes.removeDonation rest _ (nil_append _).symm distinct

theorem Executes.checkFront {k k' : Kernel} (hi : (k.thread k.current).stack = [])
    (yielded : k.yieldToFront = some k') : Executes (k.withCode [.checkFront]) k' := by
  have hp := withCode_of_stack k [] hi
  unfold yieldToFront at yielded
  by_cases greater : k.frontIsGreater
  · rw [if_pos greater] at yielded
    have first : (k.withCode []).execInstr .checkFront = some (k.withCode [.threadYield]) := by
      simp only [hp, execInstr, Kernel.checkFront, if_pos greater, push_of_idle hi]
    exact .instr first (.instr (by rw [hp]; exact yielded) .done)
  · rw [if_neg greater] at yielded
    cases yielded
    refine .instr ?_ .done
    simp [execInstr, Kernel.checkFront, hp, greater]

theorem Executes.acquireTurn {k k' : Kernel} {resumed : Bool}
    (hi : (k.thread k.current).stack = []) (turn : k.acquireTurn l = some k') :
    Executes (k.withCode [.semaDown (.ofLock l) resumed]) k' := by
  have hp := withCode_of_stack k [] hi
  simp only [Kernel.acquireTurn] at turn
  by_cases zero : (k.sema (.ofLock l)).value = 0
  · rw [if_pos zero] at turn
    exact .instr (by rw [hp]; exact turn) .done
  · rw [if_neg zero] at turn
    cases turn
    let v := k.sema (.ofLock l)
    let k1 := k.setSema (.ofLock l) { v with value := v.value - 1 }
    have idle1 : (k1.thread k1.current).stack = [] := hi
    have down : (k.withCode []).execInstr (.semaDown (.ofLock l) resumed) =
        some (k1.withCode [.clearWaiting, .setHolder l]) := by
      simp only [hp, execInstr, semaDown, if_neg zero, afterDown]
      exact congrArg some (push_of_idle idle1)
    refine .instr down (.instr (congrArg some (withCode_setWaiting k1 _ none)) (.instr rfl ?_))
    have idle' : (((k1.setWaiting k1.current none).setHolder l
        (some k1.current)).thread k1.current).stack = [] := by
      simpa [k1, setWaiting] using hi
    rw [show ((k1.setWaiting k1.current none).withCode []).setHolder l
        (some ((k1.setWaiting k1.current none).withCode []).current) =
      ((k1.setWaiting k1.current none).setHolder l (some k1.current)).withCode [] from rfl,
      withCode_of_stack _ [] idle']
    exact .done

theorem Executes.lockAcquire {k k' : Kernel} (hi : (k.thread k.current).stack = [])
    (acquired : k.lockAcquire l = some k') : Executes (k.withCode [.lockAcquire l]) k' := by
  have hp := withCode_of_stack k [] hi
  unfold Kernel.lockAcquire at acquired
  split_ifs at acquired with held donates
  · obtain ⟨k1, registered, turn⟩ := bind_eq_some_iff.mp acquired
    obtain ⟨h, holds, rfl⟩ := map_eq_some_iff.mp registered
    let k2 := k.setWaiting k.current (some l)
    let k3 := k2.modify h fun th => { th with donations := th.donations ++ [k.current] }
    let k4 := k3.donatePriority k.current
    have enter : (k.withCode []).execInstr (.lockAcquire l) = some (k.withCode
        [.setWaiting l, .pushDonation l, .donatePriority, .semaDown (.ofLock l) false]) := by
      simp only [hp, execInstr, if_neg held, if_pos donates, push_of_idle hi]
    have push : ∀ code, (k2.withCode code).execInstr (.pushDonation l) = some
      (k3.withCode code) := by
      intro code
      have hm := withCode_modify k2 code h
        (f := fun th => { th with donations := th.donations ++ [k.current] }) fun _ _ => rfl
      have holds' : (k2.withCode code).holder l = some h := holds
      simp only [execInstr, pushDonation, holds', map_some]
      exact congrArg some hm
    have idle4 : (k4.thread k4.current).stack = [] := by
      have current : k4.current = k.current := donateLoop_current _ k3 _
      have hk : (k4.thread k.current).stack = (k3.thread k.current).stack :=
        donateLoop_stack _ k3 _ _
      rw [current, hk]
      simpa [k3, k2, setWaiting] using hi
    refine .instr enter (.instr (congrArg some (withCode_setWaiting k _ (some l)))
      (.instr (push _) (.instr (congrArg some (withCode_donateLoop _ _ k3 k.current)) ?_)))
    exact .acquireTurn idle4 turn
  · have enter : (k.withCode []).execInstr (.lockAcquire l) =
        some (k.withCode [.semaDown (.ofLock l) false]) := by
      simp only [hp, execInstr, if_neg held, if_neg donates, push_of_idle hi]
    exact .instr enter (.acquireTurn hi acquired)

theorem Executes.lockTryAcquire {k k' : Kernel} (hi : (k.thread k.current).stack = [])
    (acquired : k.lockTryAcquire l = some k') : Executes (k.withCode [.lockTryAcquire l]) k' := by
  have hp := withCode_of_stack k [] hi
  simp only [Kernel.lockTryAcquire] at acquired
  split_ifs at acquired with held pos
  all_goals
    cases acquired
    have enter : (k.withCode []).execInstr (.lockTryAcquire l) =
        some (k.withCode [.semaTryDown (.ofLock l)]) := by
      simp only [hp, execInstr, if_neg held, push_of_idle hi]
  · let v := k.sema (.ofLock l)
    let k1 := k.setSema (.ofLock l) { v with value := v.value - 1 }
    have idle1 : (k1.thread k1.current).stack = [] := hi
    have down : (k.withCode []).execInstr (.semaTryDown (.ofLock l)) =
        some (k1.withCode [.setHolder l]) := by
      simp only [hp, execInstr, semaTryDown, if_pos pos, afterTryDown]
      exact congrArg some (push_of_idle idle1)
    refine .instr enter (.instr down (.instr rfl ?_))
    rw [withCode_of_stack k1 [] idle1]
    exact .done
  · refine .instr enter (.instr ?_ .done)
    simp only [hp, execInstr, semaTryDown, if_neg pos]

/-- The end of `sema_up`, where it may yield. -/
theorem Executes.semaUp {k k1 k' : Kernel} {s : SemaPtr} (hi : (k.thread k.current).stack = [])
    (up : k.semaUp s = some k1) (yielded : k1.yieldToFront = some k') :
    Executes (k.withCode [.semaUp s]) k' := by
  have idle1 : (k1.thread k1.current).stack = [] := by
    rw [semaUp_current up, semaUp_stack up, hi]
  refine .instr ?_ (.checkFront idle1 yielded)
  rw [withCode_of_stack k [] hi]
  simp only [execInstr, up, map_some, push_of_idle idle1]

theorem Executes.lockRelease {k k' : Kernel}
    (hi : (k.thread k.current).stack = []) (distinct : (k.thread k.current).donations.Nodup)
    (released : k.lockRelease l = some k') : Executes (k.withCode [.lockRelease l]) k' := by
  have hp := withCode_of_stack k [] hi
  let k1 := k.setHolder l none
  simp only [Kernel.lockRelease] at released
  split_ifs at released with held mlfqs
  · obtain ⟨k2, up, yielded⟩ := bind_eq_some_iff.mp released
    have enter : (k.withCode []).execInstr (.lockRelease l) =
        some (k.withCode [.clearHolder l, .semaUp (.ofLock l)]) := by
      have mlfqs' : k.mlfqs = true := mlfqs
      simp only [hp, execInstr, if_pos held, if_pos mlfqs', push_of_idle hi,
        nil_append]
    have idle1 : (k1.thread k1.current).stack = [] := hi
    exact .instr enter (.instr rfl (.semaUp idle1 up yielded))
  · obtain ⟨k2, up, yielded⟩ := bind_eq_some_iff.mp released
    have enter : (k.withCode []).execInstr (.lockRelease l) = some (k.withCode
        [.clearHolder l, .removeDonations l, .updatePriority, .semaUp (.ofLock l)]) := by
      have mlfqs' : ¬ k.mlfqs = true := mlfqs
      simp only [hp, execInstr, if_pos held, if_neg mlfqs', push_of_idle hi,
        cons_append, nil_append]
    have distinct1 : ((k1.removeDonationsForLock k.current l).thread
        k.current).donations.Nodup := by
      simpa [k1, removeDonationsForLock] using distinct.filter _
    refine .instr enter (.instr rfl ?_)
    refine .trans (.removeDonations (k := k1) distinct) (.trans (.updatePriority distinct1) ?_)
    refine .semaUp ?_ up yielded
    simpa [k1, updatePriorityAfterRelease, removeDonationsForLock] using hi

theorem Executes.threadSetPriority {k k' : Kernel} {p : Int}
    (hi : (k.thread k.current).stack = []) (distinct : (k.thread k.current).donations.Nodup)
    (done : k.threadSetPriority p = some k') : Executes (k.withCode [.setBase p]) k' := by
  have hp := withCode_of_stack k [] hi
  simp only [Kernel.threadSetPriority] at done
  split_ifs at done with mlfqs
  · cases done
    refine .instr ?_ .done
    simp only [hp, execInstr, if_pos mlfqs]
  · let k1 := k.modify k.current fun th => { th with basePriority := p }
    have idle1 : (k1.thread k1.current).stack = [] := by simpa [k1] using hi
    have enter : (k.withCode []).execInstr (.setBase p) =
        some (k1.withCode [.updatePriority, .checkFront]) := by
      simp only [hp, execInstr, if_neg mlfqs]
      exact congrArg some (push_of_idle idle1)
    refine .instr enter ((Executes.updatePriority ?_).trans (.checkFront ?_ done))
    · simpa [k1] using distinct
    · simpa [updatePriorityAfterRelease] using idle1

/-- Every step of this machine is a run of the machine with preemption. -/
theorem operate_run {k k' : Kernel} {op : Operation}
    (distinct : (k.thread k.current).donations.Nodup)
    (ran : k.operate op = some k') :
    ∃ history, Machine.Run step Machine.Free k history k' := by
  -- a call from thread code, then the instructions it unfolds into
  have hc : ∀ (c : Call), k.inThreadCode → Executes (k.withCode c.code) k' →
      ∃ history, Machine.Run step Machine.Free k history k' := by
    intro c free execs
    have hi : (k.thread k.current).stack = [] := isEmpty_iff.mp free
    have first : Machine.Run step Machine.Free k [.call c] (k.withCode c.code) := by
      refine .next (Event.call c) .start trivial ?_
      simp only [step, if_pos free, push_of_idle hi]
    obtain ⟨history, later⟩ := execs.run
    exact ⟨_, first.append later⟩
  have idle_of : k.inThreadCode = true → (k.thread k.current).stack = [] := isEmpty_iff.mp
  cases op with
  | acquire l =>
    simp only [operate] at ran
    split_ifs at ran with free
    exact hc (.lockAcquire l) free (.lockAcquire (idle_of free) ran)
  | tryAcquire l =>
    simp only [operate] at ran
    split_ifs at ran with free
    exact hc (.lockTryAcquire l) free (.lockTryAcquire (idle_of free) ran)
  | release l =>
    simp only [operate] at ran
    split_ifs at ran with free
    exact hc (.lockRelease l) free (.lockRelease (idle_of free) distinct ran)
  | setPriority p =>
    simp only [operate] at ran
    split_ifs at ran with free
    exact hc (.threadSetPriority p) free
      (.threadSetPriority (idle_of free) distinct ran)
  | yield =>
    simp only [operate] at ran
    split_ifs at ran with free
    refine hc .threadYield free (.instr ?_ .done)
    rw [withCode_of_stack k [] (idle_of free)]
    exact ran
  | block =>
    simp only [operate] at ran
    split_ifs at ran with free
    refine hc .threadBlock free (.instr ?_ .done)
    rw [withCode_of_stack k [] (idle_of free)]
    exact ran
  | unblock t =>
    simp only [operate] at ran
    split_ifs at ran with free
    refine ⟨[.interrupt (.threadUnblock t)], .next _ .start trivial ?_⟩
    simp only [step, interrupt, if_pos free.1, if_pos free.2]
    exact ran
  | resume =>
    simp only [operate, resume] at ran
    split at ran
    · rename_i w rest code
      cases ran
      refine Executes.run (.next ?_ .done)
      simp only [exec, code, execInstr]
    · rename_i l code
      refine Executes.run ?_
      rw [← withCode_of_stack k _ code, ← withCode_withCode k []]
      have hi : ((k.withCode []).thread (k.withCode []).current).stack = [] :=
        withCode_stack k []
      exact .acquireTurn hi ran
    · rename_i code
      refine Executes.run (.next ?_ .done)
      simp only [exec, code, execInstr]
      exact ran
    · cases ran

end Kernel

end Pintos.Threads
