import Pintos.Threads.SchedulerSteps
import Pintos.Threads.Frame

/-!
# The scheduler's lists over whole runs

Every instruction, call and interrupt keeps `Scheduled`, so it holds in every
state a kernel reaches after `thread_start`, with either scheduler.
-/

namespace Pintos.Threads

open Ordered List

namespace Kernel

section
variable {k k' : Kernel}

theorem Scheduled.exec (inv : Scheduled k) (h : k.exec = some k') : Scheduled k' := by
  obtain ⟨i, rest, old, h⟩ := exec_eq h
  cases i with
  | resume w =>
    cases h
    exact inv.done old rfl
  | semaDown s resumed => exact inv.semaDown old h
  | semaTryDown s =>
    cases h
    exact inv.semaTryDown old
  | semaUp s =>
    obtain ⟨k1, up, rfl⟩ := Option.map_eq_some_iff.mp h
    exact ((inv.done old rfl).semaUp up).push (by simp) (by simp)
  | checkFront =>
    cases h
    exact inv.checkFront old rfl (quiet_setStack rest) (by simp) rfl
  | threadYield => exact (inv.done old rfl).threadYield h
  | threadBlock => exact inv.block old (.of_other rfl (by simp)) (by simp) h
  | threadUnblock t =>
    simp only [execInstr] at h
    split_ifs at h with parked
    exact (inv.done old rfl).unpark parked h
  | timerSleep n => exact inv.timerSleep old h
  | threadSleep w => exact inv.threadSleep old h
  | threadExit => exact inv.threadExit old h
  | initThread p => exact inv.initThread old h
  | create st t p => exact inv.create old h
  | createCheck p => exact inv.createCheck old h
  | setBase p => exact inv.setBase old h
  | updatePriority =>
    cases h
    exact inv.onward old _ (.of_other rfl (by simp))
  | maxDonation e m => exact inv.maxDonation old h
  | threadSetNice n => exact inv.threadSetNice old h
  | lockAcquire l => exact inv.lockAcquire old h
  | setWaiting l =>
    cases h
    exact inv.setWaiting _ old rfl
  | pushDonation l => exact inv.pushDonation old h
  | donatePriority =>
    cases h
    exact ((inv.done old rfl).donateLoop _ _).1
  | clearWaiting =>
    cases h
    exact inv.setWaiting _ old rfl
  | setHolder l =>
    cases h
    exact inv.setHolder old rfl (by simp)
  | lockTryAcquire l =>
    simp only [execInstr] at h
    split_ifs at h
    cases h
    exact inv.onward old _ (.of_other rfl (by simp))
  | lockRelease l =>
    simp only [execInstr] at h
    split_ifs at h <;> cases h
    · exact inv.onward old _ (.of_other rfl (by simp))
    · exact inv.onward old _ (.of_other rfl (by simp))
  | clearHolder l =>
    cases h
    exact inv.setHolder old rfl (by simp)
  | removeDonations l =>
    cases h
    exact inv.onward old _ (.of_other rfl (by simp))
  | removeDonation l e => exact inv.removeDonation old h
  | condWait c l => exact inv.condWait old h
  | condSignal c l stray => exact inv.condSignal old h
  | condBroadcast c l stray => exact inv.condBroadcast old h
  | idleStart started => exact inv.idleStart old h
  | idleLoop => exact inv.block old ⟨by simp, by simp, by simp⟩ (by simp) h

theorem Scheduled.interrupt {i : Interrupt} (inv : Scheduled k) (h : k.interrupt i = some k') :
    Scheduled k' := by
  cases i with
  | timer =>
    obtain ⟨k1, yield, ticked, yields | rfl⟩ := timer_eq h
    · exact (inv.timerInterrupt ticked).threadYield yields
    · exact inv.timerInterrupt ticked
  | semaTryDown n =>
    obtain ⟨value, eq⟩ := semaTryDown_named k n
    rw [← Option.some.inj h, eq]
    refine Ranked.scheduled ?_ inv.lists.readySorted inv
    refine ⟨rfl, rfl, rfl, .refl _, rfl, rfl, fun s => ?_, rfl, fun _ => rfl, fun _ => rfl⟩
    by_cases same : s = .named n <;> simp [same]
  | semaUp n => exact inv.semaUp h
  | threadUnblock t =>
    simp only [Kernel.interrupt] at h
    split_ifs at h with parked
    exact inv.unpark parked h

theorem Scheduled.call {c : Call} (inv : Scheduled k) (free : k.inThreadCode = true) :
    Scheduled (k.push c.code) := by
  have empty := stack_eq_nil free
  have hb : k.current ≠ bootIdle := by
    intro eq
    have last := inv.tidy.idleLast
    simp [← eq, empty] at last
  cases c with
  | threadCreate p page =>
    have code : CodeOk k k.current (Call.code (.threadCreate p page)) := by
      constructor <;> cases page <;> simp [Call.code, hb]
    refine ⟨(quiet_setStack _).lists inv.lists, ?_⟩
    refine inv.tidy.recode inv.up code rfl rfl (by simp +contextual) (fun eq => absurd eq hb)
      (by simp [empty]) (by simp +contextual) (by simp +contextual)
  | _ => exact inv.push (by simp [Call.code]) (fun eq => absurd eq hb)

theorem Scheduled.step {e : Event} (inv : Scheduled k) (h : k.step e = some k') : Scheduled k' := by
  cases e with
  | call c =>
    simp only [Kernel.step] at h
    split_ifs at h with free
    cases h
    exact inv.call free
  | exec => exact inv.exec h
  | interrupt i =>
    simp only [Kernel.step] at h
    split_ifs at h
    exact inv.interrupt h

/-- The three kinds of record at boot: the initial thread, the idle thread, and no thread yet. -/
theorem boot_cases (mlfqs : Bool) (value : Nat → Nat) {P : Nat → Thread → Prop}
    (main : P 0 { tid := 1, status := .running, priority := priDefault
                  basePriority := priDefault, stack := [.semaDown (.named idleStarted) false] })
    (hi : P 1 { tid := 2, status := .ready, stack := [.resume .created, .idleStart idleStarted] })
    (rest : ∀ t, 2 ≤ t → P t {}) (t : Nat) : P t ((boot mlfqs value).thread t) := by
  match t with
  | 0 => exact main
  | 1 => exact hi
  | t + 2 => exact rest (t + 2) (Nat.le_add_left 2 t)

theorem boot_waiters (mlfqs : Bool) (value : Nat → Nat) (s : SemaPtr) :
    ((boot mlfqs value).sema s).waiters = [] := by
  match s with
  | .named 0 | .named (n + 1) | .ofLock l | .ofWaiter t => rfl

theorem lists_boot (mlfqs : Bool) (value : Nat → Nat) :
    Lists (boot mlfqs value) (some mainThread) := by
  have byCases {P : Nat → Thread → Prop} := @boot_cases mlfqs value P
  constructor
  case running =>
    refine byCases (P := fun t th => th.status = .running ↔ some mainThread = some t) ?_ ?_ ?_
    · simp [mainThread]
    · simp [mainThread]
    · intro t ht
      have ne : mainThread ≠ t := Nat.ne_of_lt (Nat.lt_of_lt_of_le Nat.zero_lt_two ht)
      simpa using ne
  case ready =>
    refine byCases (P := fun t th => t ∈ [bootIdle] ↔ th.status = .ready ∧ none ≠ some t) ?_ ?_ ?_
    · simp [bootIdle]
    · simp [bootIdle]
    · intro t ht; simp [bootIdle]; omega
  case readyNodup => exact nodup_singleton _
  case readySorted => exact pairwise_singleton _ _
  case sleeping =>
    refine byCases (P := fun t th => t ∈ [] ↔
      th.status = .blocked ∧ th.stack.head? = some (.resume .slept)) ?_ ?_ ?_ <;> simp
  case sleepNodup => exact nodup_nil
  case waiting =>
    intro s
    rw [boot_waiters]
    refine byCases (P := fun t th => t ∈ [] ↔
      th.status = .blocked ∧ th.stack.head? = some (.semaDown s true)) ?_ ?_ ?_ <;> simp
  case waitersNodup => intro s; rw [boot_waiters]; exact nodup_nil
  case all =>
    refine byCases (P := fun t th => t ∈ [mainThread, bootIdle] ↔
      t < 2 ∧ th.status ≠ .dying) ?_ ?_ ?_
    · simp [mainThread, bootIdle]
    · simp [mainThread, bootIdle]
    · intro t ht; simp [mainThread, bootIdle]; omega
  case allNodup => exact (by decide : [mainThread, bootIdle].Nodup)

theorem stacks_boot (mlfqs : Bool) (value : Nat → Nat) : Stacks (boot mlfqs value) := by
  have byCases {P : Nat → Thread → Prop} := @boot_cases mlfqs value P
  have creates : ∀ u, ((boot mlfqs value).thread u).stack.countP Instr.creates = 0 := by
    refine byCases (P := fun _ th => th.stack.countP Instr.creates = 0) ?_ ?_ ?_ <;> simp
  have notCreating : ∀ u st t p, .create st t p ∉ ((boot mlfqs value).thread u).stack :=
    fun u st t p h => countP_eq_zero.mp (creates u) _ h rfl
  constructor
  case unborn =>
    refine byCases (P := fun t th => 2 ≤ t → th.status = .blocked ∧ th.stack = []) ?_ ?_ ?_ <;> simp
  case idlePtr => exact .inl rfl
  case idleInstrs =>
    show ∀ i ∈ [.resume .created, .idleStart idleStarted], Instr.idles i = true
    simp
  case idleLast => exact .inr ⟨_, rfl⟩
  case idleAlive => exact (by decide : Status.ready ≠ .dying)
  case idleStart =>
    refine byCases (P := fun t th => ∀ s, .idleStart s ∈ th.stack → t = bootIdle) ?_ ?_ ?_ <;>
      simp [bootIdle]
  case ownWaiter =>
    refine byCases (P := fun t th => ∀ u r, .semaDown (.ofWaiter u) r ∈ th.stack → u = t)
      ?_ ?_ ?_ <;> simp [idleStarted]
  case creating => exact fun u st t p h => absurd h (notCreating u st t p)
  case creatingOnce => intro u; rw [creates]; decide
  case creatingUnique => exact fun u _ st _ t p _ h => absurd h (notCreating u st t p)
  case holders => rintro _ _ ⟨⟩

theorem scheduled_boot (mlfqs : Bool) (value : Nat → Nat) : Scheduled (boot mlfqs value) :=
  ⟨lists_boot mlfqs value, stacks_boot mlfqs value⟩

end

/-! ### The threads of `all_list` -/

/-- The threads of `all_list`, and how many there have been. -/
def listed (k : Kernel) : List ThreadPtr × Nat := (k.allList, k.created)

theorem listed_of_fixed {k k' : Kernel} (eq : k'.fixed = k.fixed) : k'.listed = k.listed := by
  obtain ⟨all, created, _⟩ := (Prod.ext_iff.mp eq).imp_right Prod.ext_iff.mp
  exact Prod.ext all created

theorem execInstr_listed {k k' : Kernel} {i : Instr} (h : k.execInstr i = some k')
    (stays : i ≠ .threadExit) (old : ∀ p, i ≠ .initThread p) : k'.listed = k.listed := by
  obtain ⟨k1, hw, eq⟩ := execInstr_writes h
  rw [listed_of_fixed eq]
  cases hw with
  | exit => exact absurd rfl stays
  | init p => exact absurd rfl (old p)
  | _ => rfl

theorem interrupt_listed {k k' : Kernel} {i : Interrupt} (h : k.interrupt i = some k') :
    k'.listed = k.listed := by
  rcases interrupt_writes h with eq | ⟨n, v, eq⟩ <;> rw [listed_of_fixed eq]
  rfl

/-- The thread that runs the removal in `thread_exit`, if this event is one. -/
def exits (k : Kernel) : Event → List ThreadPtr
  | .exec =>
    match (k.thread k.current).stack with
    | .threadExit :: _ => [k.current]
    | _ => []
  | _ => []

/-- `all_list` holds the threads there have been, without those that are `gone`. -/
@[grind cases] structure Remaining (gone : List ThreadPtr) (k : Kernel) : Prop where
  born : ∀ t ∈ gone, t < k.created
  all : ∀ t, t ∈ k.allList ↔ t < k.created ∧ t ∉ gone

variable {gone : List ThreadPtr} {run : Option ThreadPtr}

theorem Remaining.of_listed {k k' : Kernel} (was : Remaining gone k)
    (eq : k'.listed = k.listed) : Remaining gone k' := by
  obtain ⟨all, created⟩ := Prod.mk.inj eq
  exact ⟨by rw [created]; exact was.born, by rw [all, created]; exact was.all⟩

theorem Remaining.threadExit {k k' : Kernel} (inv : Scheduled k)
    (was : Remaining gone k) (all : k'.allList = k.allList.erase k.current)
    (created : k'.created = k.created) : Remaining (k.current :: gone) k' := by
  constructor <;> grind [Function.update_apply]

theorem Remaining.initThread {k k' : Kernel}
    (was : Remaining gone k) (all : k'.allList = k.allList ++ [k.created])
    (created : k'.created = k.created + 1) : Remaining gone k' := by
  constructor <;> grind [Function.update_apply]

theorem Remaining.exec {k k' : Kernel} (inv : Scheduled k)
    (was : Remaining gone k) (h : k.exec = some k') : Remaining (k.exits .exec ++ gone) k' := by
  obtain ⟨i, rest, old, h⟩ := exec_eq h
  by_cases leaving : i = .threadExit
  · subst leaving
    have seen : k.exits .exec = [k.current] := by simp [exits, old]
    rw [seen]
    have gone := Prod.mk.inj (listed_of_fixed (schedule_fixed h))
    exact was.threadExit inv gone.1 gone.2
  · have seen : k.exits .exec = [] := by
      simp only [exits]
      split
      · rename_i code; exact absurd (cons.inj (old.symm.trans code)).1 leaving
      · rfl
    rw [seen, nil_append]
    by_cases new : ∃ p, i = .initThread p
    · obtain ⟨p, rfl⟩ := new
      simp only [execInstr] at h
      split_ifs at h
      cases h
      exact was.initThread rfl rfl
    · exact was.of_listed ((execInstr_listed h leaving fun p eq => new ⟨p, eq⟩).trans rfl)

theorem Remaining.step {k k' : Kernel} {e : Event} (inv : Scheduled k)
    (was : Remaining gone k) (h : k.step e = some k') : Remaining (k.exits e ++ gone) k' := by
  cases e with
  | call c =>
    simp only [Kernel.step] at h
    split_ifs at h
    exact was.of_listed (by cases h; rfl)
  | exec => exact was.exec inv h
  | interrupt i =>
    simp only [Kernel.step] at h
    split_ifs at h
    exact was.of_listed (interrupt_listed h)

/-- The lists that link threads through `elem`. -/
inductive Queue where
  | ready
  | sleep
  | waiters (s : SemaPtr)

def queue (k : Kernel) : Queue → List ThreadPtr
  | .ready => k.readyList
  | .sleep => k.sleepList
  | .waiters s => (k.sema s).waiters

theorem Lists.queue_nodup {k : Kernel} (lists : Lists k run) (q : Queue) : (k.queue q).Nodup := by
  cases q with
  | ready => exact lists.readyNodup
  | sleep => exact lists.sleepNodup
  | waiters s => exact lists.waitersNodup s

/-- A thread is in the one list its status and its next instruction name. -/
theorem Lists.queue_unique {k : Kernel} (lists : Lists k run)
    {t : ThreadPtr} {q q' : Queue} (first : t ∈ k.queue q) (second : t ∈ k.queue q') : q = q' := by
  cases q <;> cases q' <;>
    simp only [queue, lists.ready, lists.sleeping, lists.waiting] at first second <;> simp_all

/-- The scheduler's lists and the states of the threads agree in every state the
kernel reaches, under preemption and with either scheduler. -/
theorem scheduler_lists_agree {mlfqs : Bool} {value : Nat → Nat} {history : List Event} {k : Kernel}
    (run : Machine.Run step Machine.Free (boot mlfqs value) history k) :
    (∃! t, (k.thread t).status = .running) ∧
    (∀ t, t ∈ k.readyList ↔ (k.thread t).status = .ready ∧ k.idleThread ≠ some t) ∧
    k.readyList.Pairwise (fun a b => (k.thread a).priority ≥ (k.thread b).priority) ∧
    (∀ q, (k.queue q).Nodup) ∧
    (∀ t q q', t ∈ k.queue q → t ∈ k.queue q' → q = q') ∧
    (∀ s, ∀ t ∈ (k.sema s).waiters, (k.thread t).status = .blocked) ∧
    (∀ t ∈ k.sleepList, (k.thread t).status = .blocked) ∧
    (∀ t, t ∈ k.allList ↔
      t < k.created ∧ t ∉ Machine.log step exits (boot mlfqs value) history) := by
  have hr : Scheduled k ∧ Remaining (Machine.log step exits (boot mlfqs value) history) k := by
    refine run.log_invariant (I := fun gone k => Scheduled k ∧ Remaining gone k) ?_ ?_
    · have inv := scheduled_boot mlfqs value
      have alive : ∀ t, ((boot mlfqs value).thread t).status ≠ .dying := by
        refine boot_cases mlfqs value (P := fun _ th => th.status ≠ .dying) ?_ ?_ ?_ <;> simp
      refine ⟨inv, ⟨by simp, fun t => ?_⟩⟩
      rw [inv.lists.all t]
      simp [alive t]
    · rintro gone k e k' ⟨inv, was⟩ _ h
      exact ⟨inv.step h, was.step inv h⟩
  obtain ⟨⟨lists, _⟩, remaining⟩ := hr
  refine ⟨⟨k.current, (lists.running _).mpr rfl, ?_⟩, lists.ready, ?_, lists.queue_nodup,
    fun t q q' => lists.queue_unique, ?_, ?_, remaining.all⟩
  · intro t running
    exact (Option.some.inj ((lists.running t).mp running)).symm
  · exact lists.readySorted.imp fun h => Int.not_lt.mp h
  · exact fun s t queued => ((lists.waiting s t).mp queued).1
  · exact fun t asleep => ((lists.sleeping t).mp asleep).1

/-- The idle thread starts, and the initial thread creates a thread of priority 40
that gets the CPU and exits. -/
def createAndExit : List Event :=
  replicate 7 .exec ++ .call (.threadCreate 40 true) :: replicate 19 .exec ++
    [.call .threadExit, .exec]

theorem scheduler_lists_agree_createAndExit :
    ∃ k, Machine.runs step Machine.Free (boot false fun _ => 0) createAndExit = some k ∧
      k.allList = [mainThread, bootIdle] ∧ k.created = 3 ∧
      ∃! t, (k.thread t).status = .running := by
  have state : (Machine.runs step Machine.Free (boot false fun _ => 0) createAndExit).map
      (fun k => (k.allList, k.created)) = some ([mainThread, bootIdle], 3) := by decide +kernel
  obtain ⟨k, hr, seen⟩ := Option.map_eq_some_iff.mp state
  obtain ⟨all, created⟩ := Prod.mk.inj seen
  exact ⟨k, hr, all, created, (scheduler_lists_agree (Machine.runs_run hr)).1⟩

end Kernel

end Pintos.Threads
