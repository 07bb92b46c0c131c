import Pintos.Threads.Code

/-!
# The alarm clock

A log of the calls of `timer_sleep`, of the threads that go to sleep, of the ticks with
the sleepers each of them unblocks, and of the ends of calls. From the log alone one
reads the time, who is asleep and until when, and what `timer_sleep` owes its callers.
`Timely` says what may come next; the kernel keeps to it.
-/

namespace Pintos.Threads

open Ordered List Option

/-- `unblocked` is for sleepers that something else than a tick has unblocked. -/
inductive SleepEvent where
  | called (t : ThreadPtr) (ticks : Int)
  | slept (t : ThreadPtr) (wakeTick : Int)
  | ticked (woken : List ThreadPtr)
  | unblocked (woken : List ThreadPtr)
  | returned (t : ThreadPtr)
  deriving DecidableEq, Repr

/-- The ticks since the machine started. -/
def clock : List SleepEvent → Int
  | [] => 0
  | .ticked _ :: seen => clock seen + 1
  | _ :: seen => clock seen

/-- Until when a thread is asleep, if it is. -/
def asleepUntil : List SleepEvent → ThreadPtr → Option Int
  | [], _ => none
  | .slept u w :: seen, t => if u = t then some w else asleepUntil seen t
  | .ticked woken :: seen, t | .unblocked woken :: seen, t =>
    if t ∈ woken then none else asleepUntil seen t
  | _ :: seen, t => asleepUntil seen t

/-- When a thread last went to sleep, as a place in the log. -/
def arrival : List SleepEvent → ThreadPtr → Nat
  | [], _ => 0
  | .slept u _ :: seen, t => if u = t then seen.length else arrival seen t
  | _ :: seen, t => arrival seen t

/-- Before which tick a thread must not come back from `timer_sleep`. -/
def owed : List SleepEvent → ThreadPtr → Option Int
  | [], _ => none
  | .called u n :: seen, t =>
    if u = t then if 0 < n then some (clock seen + n) else none else owed seen t
  | .returned u :: seen, t => if u = t then none else owed seen t
  | _ :: seen, t => owed seen t

/-- What may come next. A tick wakes exactly the sleepers that are due, so each of them
at the first tick it is due at; nothing else wakes a sleeper. -/
def Timely (seen : List SleepEvent) : SleepEvent → Prop
  | .called .. => True
  | .slept t _ => asleepUntil seen t = none
  | .ticked woken => woken.Nodup ∧
      ∀ t, t ∈ woken ↔ ∃ w, asleepUntil seen t = some w ∧ w ≤ clock seen + 1
  | .unblocked _ => False
  | .returned t => ∀ due, owed seen t = some due → due ≤ clock seen

def Punctual : List SleepEvent → Prop
  | [] => True
  | e :: seen => Timely seen e ∧ Punctual seen

namespace Kernel

/-- The sleepers an event has unblocked. -/
def roused (k k' : Kernel) : List ThreadPtr :=
  k.sleepList.filter fun t => (k'.thread t).status ≠ .blocked

def sleepCalls (k : Kernel) : Event → List SleepEvent
  | .call (.timerSleep n) => [.called k.current n]
  | .exec =>
    match (k.thread k.current).stack with
    | .threadSleep w :: _ => [.slept k.current w]
    | _ => []
  | _ => []

def sleepWakes (k k' : Kernel) : Event → List SleepEvent
  | .interrupt .timer => [.ticked (k.roused k')]
  | _ => if k.roused k' = [] then [] else [.unblocked (k.roused k')]

/-- The running thread is back in its own code. -/
def sleepReturns (k k' : Kernel) : List SleepEvent :=
  if ¬ k.inThreadCode ∧ (k'.thread k.current).stack.isEmpty then [.returned k.current] else []

def sleepEvents (k : Kernel) (e : Event) : List SleepEvent :=
  (k.step e).elim [] fun k' => k.sleepReturns k' ++ (k.sleepWakes k' e ++ k.sleepCalls e)

section
variable {k k' : Kernel}

/-- The sleepers of a state, and their wake ticks, as another state has them. -/
structure Resting (k k' : Kernel) : Prop where
  list : k'.sleepList = k.sleepList
  ticks : k'.ticks = k.ticks
  wakeTick : ∀ t ∈ k.sleepList, (k'.thread t).wakeTick = (k.thread t).wakeTick

theorem resting_of_kept (eq : k'.kept = k.kept) : Resting k k' := by
  obtain ⟨list, ticks, wakeTick⟩ := kept_eq eq
  exact ⟨list, ticks, fun t _ => wakeTick t⟩

theorem exec_resting {i : Instr} {rest : List Instr} (inv : Scheduled k) (h : k.Does i rest k')
    (awake : ∀ w, i ≠ .threadSleep w) : Resting k k' := by
  cases stirs : i.stirs with
  | false => exact resting_of_kept ((execInstr_kept h stirs).trans (by simp))
  | true =>
    cases i with
    | threadSleep w => exact absurd rfl (awake w)
    | initThread p =>
      simp only [Does, execInstr] at h
      split_ifs at h
      cases h
      refine ⟨rfl, rfl, fun t sleeps => ?_⟩
      -- The record that is filled in belongs to no thread yet.
      have ho : t ≠ k.created := by grind
      simp only [push, setStack, modify_thread]
      split_ifs <;> simp_all
    | setWaiting | clearWaiting =>
      cases h
      exact ⟨rfl, rfl, fun t _ => by simp [setWaiting]⟩
    | pushDonation l =>
      obtain ⟨holder, _, rfl⟩ := map_eq_some_iff.mp h
      exact ⟨rfl, rfl, fun t _ => by simp⟩
    | removeDonation l e =>
      cases e with
      | none => cases stirs
      | some d =>
        simp only [Does, execInstr, some.injEq] at h
        subst h
        split <;> exact ⟨rfl, rfl, fun t _ => by simp⟩
    | _ => cases stirs

theorem threadSleep_kept {w : Int} {rest : List Instr} (h : k.Does (.threadSleep w) rest k') :
    k'.ticks = k.ticks ∧
    (∀ t, (k'.thread t).wakeTick = if t = k.current then w else (k.thread t).wakeTick) ∧
    k'.sleepList = insertOrdered k'.threadWakeTickLess k.current k.sleepList := by
  obtain ⟨list, time, ticks⟩ := kept_eq ((schedule_kept h).trans (setStatus_kept ..))
  have wakeTick : ∀ t, (k'.thread t).wakeTick =
      if t = k.current then w else (k.thread t).wakeTick := by
    intro t
    rw [ticks]
    simp only [push, setStack, modify_thread]
    split_ifs <;> simp_all
  refine ⟨time, wakeTick, list.trans ?_⟩
  refine insertOrdered_congr (fun a b => ?_) _ _
  simp only [threadWakeTickLess, ticks]

/-! ### What one step writes in the log -/

theorem mem_roused {e : Event} {t : ThreadPtr} (inv : Scheduled k) (h : k.step e = some k') :
    t ∈ k.roused k' ↔ t ∈ k.sleepList ∧ t ∉ k'.sleepList := by
  rw [roused, mem_filter, decide_eq_true_iff]
  refine and_congr_right fun sleeps => not_congr ?_
  obtain ⟨blocked, first⟩ := (inv.lists.sleeping t).mp sleeps
  obtain ⟨code, _, hr⟩ := step_flows inv h
  have away : t ≠ k.current := by
    rintro rfl
    rw [(inv.lists.running _).mpr rfl] at blocked
    cases blocked
  have eq : (k'.thread t).stack = (k.thread t).stack := by grind
  rw [(inv.step h).lists.sleeping, eq]
  exact (and_iff_left first).symm

theorem roused_nil {e : Event} (inv : Scheduled k) (h : k.step e = some k')
    (stay : ∀ t ∈ k.sleepList, t ∈ k'.sleepList) : k.roused k' = [] := by
  refine eq_nil_iff_forall_not_mem.mpr fun t woken => ?_
  obtain ⟨slept, gone⟩ := (mem_roused inv h).mp woken
  exact gone (stay t slept)

theorem sleepEvents_call {c : Call} (inv : Scheduled k) (h : k.step (.call c) = some k')
    (resting : Resting k k') : k.sleepEvents (.call c) = k.sleepCalls (.call c) := by
  have free : k.inThreadCode = true := by
    simp only [step] at h
    split_ifs at h with free
    exact free
  have none := roused_nil inv h fun t => by rw [resting.list]; exact id
  simp [sleepEvents, h, sleepReturns, free, sleepWakes, none]

theorem sleepEvents_exec {i : Instr} {rest : List Instr} (inv : Scheduled k) (old : k.Next i rest)
    (h : k.step .exec = some k') (stay : ∀ t ∈ k.sleepList, t ∈ k'.sleepList) : k.sleepEvents .exec
    = (if (k'.thread k.current).stack.isEmpty then [.returned k.current] else []) ++ k.sleepCalls
    .exec := by
  have hb : k.inThreadCode = false := by simp [inThreadCode, old]
  simp [sleepEvents, h, sleepReturns, hb, sleepWakes, roused_nil inv h stay]

theorem sleepEvents_interrupt {i : Interrupt} (h : k.step (.interrupt i) = some k') :
    k.sleepEvents (.interrupt i) = k.sleepWakes k' (.interrupt i) := by
  have stays : k.inThreadCode = false → (k'.thread k.current).stack ≠ [] := by
    intro hb empty
    simp only [step] at h
    split_ifs at h
    rcases interrupt_recoded h with hr | hr <;>
      simp_all [hr.self, inThreadCode]
  simp only [sleepEvents, h, elim_some, sleepReturns, sleepCalls, append_nil]
  rw [if_neg (by simpa using stays), nil_append]

end

end Kernel

/-! ### The log and the kernel -/

theorem arrival_lt {seen : List SleepEvent} {t : ThreadPtr} (asleep : asleepUntil seen t ≠ none) :
    arrival seen t < seen.length := by
  induction seen with
  | nil => exact absurd rfl asleep
  | cons e seen ih =>
    have earlier : asleepUntil seen t ≠ none → arrival seen t < seen.length + 1 :=
      fun was => Nat.lt_succ_of_lt (ih was)
    cases e <;> simp only [asleepUntil, arrival, length_cons] at asleep ⊢
    case slept u w => split_ifs at asleep ⊢ <;> simp_all
    case ticked | unblocked => split_ifs at asleep <;> simp_all
    all_goals exact earlier asleep

/-- A thread is on its way back from `timer_sleep`, and will not come back before `due`. -/
inductive Owes (due now : Int) : Option Int → List Instr → Prop where
  | calling {nap} (pre : List Wake) {n : Int} : 0 < n → due ≤ now + n →
      Owes due now nap (pre.map .resume ++ [.timerSleep n])
  | lying {nap} (pre : List Wake) {w : Int} : due ≤ w →
      Owes due now nap (pre.map .resume ++ [.threadSleep w])
  | asleep (pre : List Wake) {w : Int} : due ≤ w →
      Owes due now (some w) (pre.map .resume ++ [.resume .slept])
  | awake (pre : List Wake) : due ≤ now →
      Owes due now none (pre.map .resume ++ [.resume .slept])

section
variable {due now : Int} {nap : Option Int} {code rest : List Instr}

theorem Owes.ne_nil (owes : Owes due now nap code) : code ≠ [] := by
  cases owes <;> simp

theorem Owes.preempt (owes : Owes due now nap code) (w : Wake) :
    Owes due now nap (.resume w :: code) := by
  cases owes with
  | calling pre more ends => exact .calling (w :: pre) more ends
  | lying pre ends => exact .lying (w :: pre) ends
  | asleep pre ends => exact .asleep (w :: pre) ends
  | awake pre ended => exact .awake (w :: pre) ended

theorem Owes.tick (owes : Owes due now nap code) : Owes due (now + 1) nap code := by
  cases owes with
  | calling pre more ends => exact .calling pre more (by omega)
  | lying pre ends => exact .lying pre ends
  | asleep pre ends => exact .asleep pre ends
  | awake pre ended => exact .awake pre (by omega)

theorem Owes.wake {w : Int} (owes : Owes due now (some w) code) (ended : w ≤ now) :
    Owes due now none code := by
  cases owes with
  | calling pre more ends => exact .calling pre more ends
  | lying pre ends => exact .lying pre ends
  | asleep pre ends => exact .awake pre (ends.trans ended)

/-- The instruction of a thread that owes time: a resumption, or the one that goes to sleep. -/
theorem Owes.first {i : Instr} (owes : Owes due now none (i :: rest)) :
    (∃ w, i = .resume w ∧ (Owes due now none rest ∨ rest = [] ∧ due ≤ now)) ∨
      (∃ n, i = .timerSleep n ∧ rest = [] ∧ 0 < n ∧ due ≤ now + n) ∨
      ∃ w, i = .threadSleep w ∧ rest = [] ∧ due ≤ w := by
  generalize whole : i :: rest = code at owes
  cases owes with
  | calling pre more ends =>
    cases pre with
    | nil => cases whole; exact .inr (.inl ⟨_, rfl, rfl, more, ends⟩)
    | cons w pre => cases whole; exact .inl ⟨w, rfl, .inl (.calling pre more ends)⟩
  | lying pre ends =>
    cases pre with
    | nil => cases whole; exact .inr (.inr ⟨_, rfl, rfl, ends⟩)
    | cons w pre => cases whole; exact .inl ⟨w, rfl, .inl (.lying pre ends)⟩
  | awake pre ended =>
    cases pre with
    | nil => cases whole; exact .inl ⟨_, rfl, .inr ⟨rfl, ended⟩⟩
    | cons w pre => cases whole; exact .inl ⟨w, rfl, .inl (.awake pre ended)⟩

end

namespace Kernel

/-- The order of `sleep_list`: by wake tick, and among equals first come, first served. -/
def sleepsBefore (k : Kernel) (seen : List SleepEvent) (a b : ThreadPtr) : Prop :=
  (k.thread a).wakeTick < (k.thread b).wakeTick ∨
    (k.thread a).wakeTick = (k.thread b).wakeTick ∧ arrival seen a < arrival seen b

@[grind cases] structure Alarm (seen : List SleepEvent) (k : Kernel) : Prop where
  ticks : k.ticks = clock seen
  asleep : ∀ t w, asleepUntil seen t = some w ↔ t ∈ k.sleepList ∧ (k.thread t).wakeTick = w
  fifo : k.sleepList.Pairwise (k.sleepsBefore seen)
  owes : ∀ t due, owed seen t = some due →
    Owes due k.ticks (asleepUntil seen t) (k.thread t).stack
  punctual : Punctual seen

section
variable {k k' : Kernel} {seen : List SleepEvent}

section
variable (alarm : Alarm seen k)
include alarm

theorem Alarm.sorted : Sorted k.threadWakeTickLess k.sleepList := by
  refine alarm.fifo.imp fun was => ?_
  simp only [sleepsBefore, threadWakeTickLess] at was ⊢
  omega

theorem Alarm.awake {t : ThreadPtr} (off : t ∉ k.sleepList) : asleepUntil seen t = none :=
  eq_none_iff_forall_ne_some.mpr fun w asleep => off ((alarm.asleep t w).mp asleep).1

theorem Alarm.current_awake (inv : Scheduled k) : asleepUntil seen k.current = none := by
  refine alarm.awake fun sleeps => ?_
  have blocked := ((inv.lists.sleeping _).mp sleeps).1
  rw [(inv.lists.running _).mpr rfl] at blocked
  cases blocked

theorem Alarm.others {code : List Instr} (inv : Scheduled k) (hr : Recoded k k' code)
    {t : ThreadPtr} (away : t ≠ k.current) {due : Int} (owing : owed seen t = some due) :
    Owes due k.ticks (asleepUntil seen t) (k'.thread t).stack := by
  have was := alarm.owes t due owing
  rcases hr.others t away with eq | ⟨rfl, _⟩
  · rw [eq]; exact was
  · exact absurd (inv.tidy.unborn _ (Nat.le_refl _)).2 was.ne_nil

/-- A step that no sleeper notices, and the entry it leaves in the log. -/
theorem Alarm.rest {seen' : List SleepEvent} (resting : Resting k k')
    (time : clock seen' = clock seen) (asleep : asleepUntil seen' = asleepUntil seen)
    (arrived : arrival seen' = arrival seen) (punctual : Punctual seen')
    (owes : ∀ t due, owed seen' t = some due →
      Owes due k.ticks (asleepUntil seen t) (k'.thread t).stack) : Alarm seen' k' where
  ticks := by rw [resting.ticks, time]; exact alarm.ticks
  asleep t w := by
    rw [asleep, alarm.asleep, resting.list]
    exact and_congr_right fun sleeps => by rw [resting.wakeTick t sleeps]
  fifo := by
    rw [resting.list]
    refine Pairwise.imp_of_mem (fun ha hb was => ?_) alarm.fifo
    simpa only [sleepsBefore, arrived, resting.wakeTick _ ha, resting.wakeTick _ hb] using was
  owes := by rw [asleep, resting.ticks]; exact owes
  punctual := punctual

theorem Alarm.call {c : Call} (inv : Scheduled k)
    (h : k.step (.call c) = some k') : Alarm (k.sleepEvents (.call c) ++ seen) k' := by
  obtain ⟨code, _, hr⟩ := step_flows inv h
  have hc := h
  simp only [step] at hc
  split_ifs at hc with free
  have empty := stack_eq_nil free
  have resting : Resting k k' :=
    resting_of_kept (by cases hc; exact push_kept ..)
  have nothing : ∀ due, owed seen k.current ≠ some due :=
    fun due owing => (alarm.owes _ due owing).ne_nil empty
  rw [sleepEvents_call inv h resting]
  cases c with
  | timerSleep n =>
    refine alarm.rest resting rfl rfl rfl ⟨trivial, alarm.punctual⟩ fun t due owing => ?_
    simp only [sleepCalls, cons_append, nil_append, owed] at owing
    split_ifs at owing with hp pos
    · have self : (k'.thread t).stack = [.timerSleep n] := by
        rw [← some.inj hc, ← hp]
        simp [Call.code, empty]
      rw [self]
      refine .calling [] pos ?_
      rw [← some.inj owing, alarm.ticks]
    · exact alarm.others inv hr (Ne.symm hp) owing
  | _ =>
    refine alarm.rest resting rfl rfl rfl alarm.punctual fun t due owing =>
      alarm.others inv hr ?_ owing
    rintro rfl
    exact nothing due owing

end

variable {rest : List Instr}

section
variable (alarm : Alarm seen k)
include alarm

section
variable (inv : Scheduled k)
include inv

/-- An instruction other than `thread_sleep`, in a thread that owes time. -/
theorem Alarm.advance {i : Instr} {due : Int} (old : k.Next i rest)
    (awake : ∀ w, i ≠ .threadSleep w) (owing : owed seen k.current = some due)
    (h : k.Does i rest k') : Owes due k.ticks none (k'.thread k.current).stack ∨
    (k'.thread k.current).stack = [] ∧ due ≤ k.ticks := by
  have was := alarm.owes _ due owing
  rw [alarm.current_awake inv, old] at was
  obtain ⟨w, rfl, left⟩ | ⟨n, rfl, rfl, more, ends⟩ | ⟨w, rfl, _⟩ := was.first
  · cases h
    simpa using left
  · simp only [Does, execInstr, if_neg (not_le.mpr more)] at h
    cases h
    have self : (((k.setStack k.current []).push [.threadSleep (k.ticks + n)]).thread
        k.current).stack = [.threadSleep (k.ticks + n)] := by simp
    refine .inl ?_
    change Owes due k.ticks none (((k.setStack k.current []).push
      [.threadSleep (k.ticks + n)]).thread k.current).stack
    rw [self]
    exact .lying [] ends
  · exact absurd rfl (awake w)

theorem Alarm.exec {i : Instr} (old : k.Next i rest) (awake : ∀ w, i ≠ .threadSleep w)
    (ran : k.step .exec = some k') (h : k.Does i rest k') : Alarm (k.sleepEvents .exec ++ seen) k'
    := by
  have resting := exec_resting inv h awake
  obtain ⟨code, _, hr⟩ := step_flows inv ran
  have calls : k.sleepCalls .exec = [] := by
    simp only [sleepCalls, old]
    split
    · rename_i w _ eq
      exact absurd (cons.inj eq).1 (awake w)
    · rfl
  rw [sleepEvents_exec inv old ran fun t => by rw [resting.list]; exact id, calls,
    append_nil]
  split_ifs with back
  · have back : (k'.thread k.current).stack = [] := by simpa using back
    refine alarm.rest resting rfl rfl rfl ⟨fun due owing => ?_, alarm.punctual⟩
      fun t due owing => ?_
    · change due ≤ clock seen
      rw [← alarm.ticks]
      rcases alarm.advance inv old awake owing h with owes | ⟨_, ended⟩
      · exact absurd back owes.ne_nil
      · exact ended
    · simp only [cons_append, nil_append, owed] at owing
      split_ifs at owing with hp
      exact alarm.others inv hr (Ne.symm hp) owing
  · refine alarm.rest resting rfl rfl rfl alarm.punctual fun t due owing => ?_
    by_cases hp : t = k.current
    · subst hp
      rw [alarm.current_awake inv]
      refine (alarm.advance inv old awake owing h).resolve_right ?_
      rintro ⟨empty, _⟩
      simp [empty] at back
    · exact alarm.others inv hr hp owing

theorem Alarm.threadSleep {w : Int} (old : k.Next (.threadSleep w) rest)
    (ran : k.step .exec = some k') (h : k.Does (.threadSleep w) rest k') : Alarm
    (k.sleepEvents .exec ++ seen) k' := by
  obtain ⟨time, wakeTick, list⟩ := threadSleep_kept h
  obtain ⟨new, he, hr⟩ := inv.emits h
  cases he
  have self : (k'.thread k.current).stack = .resume .slept :: rest := hr.self
  have events : k.sleepEvents .exec = [.slept k.current w] := by
    rw [sleepEvents_exec inv old ran fun t sleeps => by
      rw [list]; exact mem_insertOrdered.mpr (.inr sleeps)]
    simp [sleepCalls, self, old]
  have up := alarm.current_awake inv
  have off : k.current ∉ k.sleepList := by
    intro sleeps
    rw [(alarm.asleep _ _).mpr ⟨sleeps, rfl⟩] at up
    cases up
  have ne : ∀ t ∈ k.sleepList, t ≠ k.current := by
    rintro _ sleeps rfl
    exact off sleeps
  rw [events]
  constructor
  case ticks => rw [time]; exact alarm.ticks
  case asleep =>
    intro t v
    simp only [cons_append, nil_append, asleepUntil, list, mem_insertOrdered, wakeTick]
    by_cases hp : t = k.current
    · simp [hp]
    · simp [hp, Ne.symm hp, alarm.asleep]
  case fifo =>
    have stays : ∀ t ∈ k.sleepList, (k'.thread t).wakeTick = (k.thread t).wakeTick ∧
        arrival (.slept k.current w :: seen) t = arrival seen t := by
      intro t sleeps
      simp [wakeTick, arrival, ne t sleeps, Ne.symm (ne t sleeps)]
    have last : arrival (.slept k.current w :: seen) k.current = seen.length := by simp [arrival]
    rw [list]
    refine insertOrdered_pairwise (strictWeak_lt fun t => (k'.thread t).wakeTick) ?_ ?_ ?_ ?_
    · refine Pairwise.imp_of_mem (fun ha hb ordered => ?_) alarm.sorted
      simpa only [threadWakeTickLess, (stays _ ha).1, (stays _ hb).1] using ordered
    · refine Pairwise.imp_of_mem (fun ha hb was => ?_) alarm.fifo
      simpa [sleepsBefore, stays _ ha, stays _ hb] using was
    · intro a sleeps later
      have earlier : arrival seen a < seen.length :=
        arrival_lt (by rw [(alarm.asleep a _).mpr ⟨sleeps, rfl⟩]; simp)
      simp only [sleepsBefore, cons_append, nil_append, last, (stays a sleeps).2] at later ⊢
      omega
    · exact fun a _ was => .inl was
  case owes =>
    intro t due owing
    simp only [cons_append, nil_append, owed, asleepUntil] at owing ⊢
    rw [time]
    split_ifs with hp
    · subst hp
      have was := alarm.owes _ due owing
      rw [up, old] at was
      obtain ⟨_, eq, _⟩ | ⟨_, eq, _⟩ | ⟨_, eq, rfl, ends⟩ := was.first
      · cases eq
      · cases eq
      · cases eq
        rw [self]
        exact .asleep [] ends
    · exact alarm.others inv hr (Ne.symm hp) owing
  case punctual => exact ⟨up, alarm.punctual⟩

theorem Alarm.interrupted {i : Interrupt} {t : ThreadPtr} {due : Int} (h : k.interrupt i = some k')
    (owing : owed seen t = some due) :
    Owes due k.ticks (asleepUntil seen t) (k'.thread t).stack := by
  by_cases hp : t = k.current
  · have was := alarm.owes t due owing
    subst hp
    rcases interrupt_recoded h with hr | hr <;> rw [hr.self]
    · exact was
    · exact was.preempt _
  · rcases interrupt_recoded h with hr | hr <;>
      exact alarm.others inv hr hp owing

theorem Alarm.interrupt {i : Interrupt} (ran : k.step (.interrupt i) = some k') (ne : i ≠ .timer) :
    Alarm (k.sleepEvents (.interrupt i) ++ seen) k' := by
  have h := ran
  simp only [step] at h
  split_ifs at h
  have resting : Resting k k' := by
    refine resting_of_kept ?_
    cases i with
    | timer => exact absurd rfl ne
    | semaTryDown n =>
      obtain ⟨value, eq⟩ := semaTryDown_named k n
      rw [← some.inj h, eq]
      rfl
    | semaUp n => exact semaUp_kept h
    | threadUnblock t =>
      simp only [Kernel.interrupt] at h
      split_ifs at h
      exact threadUnblock_kept h
  have none := roused_nil inv ran fun t => by rw [resting.list]; exact id
  have events : k.sleepEvents (.interrupt i) = [] := by
    rw [sleepEvents_interrupt ran]
    cases i with
    | timer => exact absurd rfl ne
    | _ => simp [sleepWakes, none]
  rw [events]
  exact alarm.rest resting rfl rfl rfl alarm.punctual fun t due => alarm.interrupted inv h

theorem Alarm.timer (ran : k.step (.interrupt .timer) = some k') :
    Alarm (k.sleepEvents (.interrupt .timer) ++ seen) k' ∧
      ∀ t ∈ k'.sleepList, k'.ticks < (k'.thread t).wakeTick := by
  have h := ran
  simp only [step] at h
  split_ifs at h
  have hk : k'.kept = (k.sleepList.dropWhile fun t => (k.thread t).wakeTick ≤ k.ticks + 1,
      k.ticks + 1, k.kept.2.2) := by
    obtain ⟨k1, yield, ticked, yields | rfl⟩ := timer_eq h
    · exact (threadYield_kept yields).trans (timerInterrupt_kept ticked)
    · exact timerInterrupt_kept ticked
  simp only [Kernel.kept, Prod.mk.injEq] at hk
  obtain ⟨list, time, wakeTick⟩ := hk
  replace wakeTick : ∀ t, (k'.thread t).wakeTick = (k.thread t).wakeTick :=
    fun t => congrArg Prod.fst (congrFun wakeTick t)
  -- `thread_wake` stops at the first sleeper that is not due; in a sorted list the others follow.
  have list : k'.sleepList = k.sleepList.filter fun t => k.ticks + 1 < (k.thread t).wakeTick := by
    rw [list, dropWhile_eq_filter]
    · simp only [← decide_not, not_le]
    · refine alarm.sorted.imp fun ordered => ?_
      simp only [threadWakeTickLess, decide_eq_true_eq] at ordered ⊢
      omega
  have woken : ∀ t, t ∈ k.roused k' ↔
      ∃ w, asleepUntil seen t = some w ∧ w ≤ clock seen + 1 := by
    intro t
    rw [mem_roused inv ran, list, mem_filter, ← alarm.ticks]
    simp only [alarm.asleep, decide_eq_true_eq, not_and, not_lt]
    constructor
    · rintro ⟨sleeps, due⟩
      exact ⟨_, ⟨sleeps, rfl⟩, due sleeps⟩
    · rintro ⟨w, ⟨sleeps, rfl⟩, due⟩
      exact ⟨sleeps, fun _ => due⟩
  rw [sleepEvents_interrupt ran]
  refine ⟨⟨?_, ?_, ?_, ?_, ?_⟩, ?_⟩
  · rw [time, alarm.ticks]; rfl
  · intro t w
    simp only [sleepWakes, cons_append, nil_append, asleepUntil, woken, list,
      mem_filter, wakeTick, alarm.ticks, decide_eq_true_eq]
    constructor
    · intro asleep
      split_ifs at asleep with due
      obtain ⟨sleeps, rfl⟩ := (alarm.asleep t w).mp asleep
      exact ⟨⟨sleeps, not_le.mp fun early => due ⟨_, asleep, early⟩⟩, rfl⟩
    · grind
  · rw [list]
    refine (alarm.fifo.filter _).imp fun was => ?_
    simpa [sleepsBefore, wakeTick, sleepWakes, arrival] using was
  · intro t due owing
    have owing : owed seen t = some due := owing
    have was := (alarm.interrupted inv h owing).tick
    rw [← time] at was
    simp only [sleepWakes, cons_append, nil_append, asleepUntil]
    split_ifs with roused
    · obtain ⟨w, asleep, ended⟩ := (woken t).mp roused
      rw [asleep] at was
      exact was.wake (by rw [time, alarm.ticks]; exact ended)
    · exact was
  · refine ⟨⟨?_, woken⟩, alarm.punctual⟩
    exact inv.lists.sleepNodup.filter _
  · grind

theorem Alarm.step {e : Event} (h : k.step e = some k') : Alarm (k.sleepEvents e ++ seen) k' := by
  cases e with
  | call c => exact alarm.call inv h
  | exec =>
    obtain ⟨i, rest, old, ran⟩ := exec_eq h
    by_cases sleeps : ∃ w, i = .threadSleep w
    · obtain ⟨w, rfl⟩ := sleeps
      exact alarm.threadSleep inv old h ran
    · exact alarm.exec inv old (fun w eq => sleeps ⟨w, eq⟩) h ran
  | interrupt i =>
    by_cases timer : i = .timer
    · subst timer
      exact (alarm.timer inv h).1
    · exact alarm.interrupt inv h timer

end

end

end

theorem alarm_boot (mlfqs : Bool) (value : Nat → Nat) : Alarm [] (boot mlfqs value) := by
  constructor <;> simp [boot, clock, asleepUntil, owed, Punctual]

def sleepLog (mlfqs : Bool) (value : Nat → Nat) : List Event → List SleepEvent :=
  Machine.log step sleepEvents (boot mlfqs value)

theorem alarm_run {mlfqs : Bool} {value : Nat → Nat} {history : List Event} {k : Kernel}
    (run : Machine.Run step Machine.Free (boot mlfqs value) history k) :
    Alarm (sleepLog mlfqs value history) k := by
  have both : Scheduled k ∧ Alarm (Machine.log step sleepEvents (boot mlfqs value) history) k :=
    run.log_invariant (I := fun seen k => Scheduled k ∧ Alarm seen k)
      ⟨scheduled_boot mlfqs value, alarm_boot mlfqs value⟩
      fun seen k e k' was _ h => ⟨was.1.step h, was.2.step was.1 h⟩
  exact both.2

/-- In every state the kernel reaches, the log of sleepers is punctual, `sleep_list` holds
exactly those the log has asleep, in the order of their wake ticks and, among equals, of
their arrival; and right after a tick nobody who is due is left on it. -/
theorem alarm_clock {mlfqs : Bool} {value : Nat → Nat} {history : List Event} {k : Kernel}
    {seen : List SleepEvent} (run : Machine.Run step Machine.Free (boot mlfqs value) history k)
    (log : sleepLog mlfqs value history = seen) :
    Punctual seen ∧ k.ticks = clock seen ∧
      (∀ t w, asleepUntil seen t = some w ↔ t ∈ k.sleepList ∧ (k.thread t).wakeTick = w) ∧
      (∀ t ∈ k.sleepList, (k.thread t).status = .blocked) ∧ k.sleepList.Nodup ∧
      k.sleepList.Pairwise (k.sleepsBefore seen) ∧
      ∀ k', k.step (.interrupt .timer) = some k' →
        k'.ticks = k.ticks + 1 ∧ ∀ t ∈ k'.sleepList, k'.ticks < (k'.thread t).wakeTick := by
  have alarm := log ▸ alarm_run run
  have inv := scheduled_run run
  refine ⟨alarm.punctual, alarm.ticks, alarm.asleep, fun t sleeps => ?_, inv.lists.sleepNodup,
    alarm.fifo, fun k' h => ?_⟩
  · exact ((inv.lists.sleeping t).mp sleeps).1
  · obtain ⟨next, early⟩ := alarm.timer inv h
    refine ⟨?_, early⟩
    rw [next.ticks, alarm.ticks, sleepEvents_interrupt h]
    rfl

/-- A thread that the initial thread has created sleeps for two ticks, then the initial thread for
one: it stands before the other. -/
def earlierFirst : List Event :=
  replicate 7 .exec ++ .call (.threadCreate 40 true) :: replicate 19 .exec ++
    .call (.timerSleep 2) :: replicate 3 .exec ++ .call (.timerSleep 1) :: replicate 3 .exec

def earlierFirstLog : List SleepEvent :=
  [.slept mainThread 1, .called mainThread 1, .returned mainThread, .slept 2 2, .called 2 2,
    .returned 2, .returned mainThread]

theorem alarm_clock_earlierFirst :
    ∃ k, Machine.runs step Machine.Free (boot false fun _ => 0) earlierFirst = some k ∧
      Punctual earlierFirstLog ∧ k.sleepList = [mainThread, 2] ∧
      k.sleepsBefore earlierFirstLog mainThread 2 ∧ ∃ k', k.step (.interrupt .timer) = some k' ∧
        k'.sleepList = [2] ∧
        k'.ticks < (k'.thread 2).wakeTick := by
  have state : ((Machine.runs step Machine.Free (boot false fun _ => 0) earlierFirst).bind fun k =>
      (k.step (.interrupt .timer)).map fun k' => (k.sleepList, k'.sleepList)) =
        some ([mainThread, 2], [2]) := by decide +kernel
  obtain ⟨k, hr, ticked⟩ := bind_eq_some_iff.mp state
  obtain ⟨k', ran, lists⟩ := map_eq_some_iff.mp ticked
  obtain ⟨sleepers, left⟩ := Prod.mk.inj lists
  obtain ⟨punctual, _, _, _, _, ordered, woken⟩ := alarm_clock (Machine.runs_run hr)
    (show sleepLog false (fun _ => 0) earlierFirst.reverse = earlierFirstLog by decide +kernel)
  rw [sleepers] at ordered
  exact ⟨k, hr, punctual, sleepers, rel_of_pairwise_cons ordered (by simp), k', ran, left,
    (woken k' ran).2 2 (by simp [left])⟩

end Kernel

end Pintos.Threads
