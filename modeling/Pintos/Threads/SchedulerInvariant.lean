import Pintos.Threads.Preemption

/-!
# The lists of the scheduler agree with the states of the threads

`Lists k run` ties `ready_list`, `sleep_list`, `all_list` and the waiters of
every semaphore to the status of each thread, when `run` is the thread on the
CPU. Which list a blocked thread is in can be read off the instruction it will
resume with, so no thread can be in two. `Stacks` is what the code left to run
may contain. Both hold in every state the kernel reaches.
-/

namespace Pintos.Threads

open Ordered List

/-- The instructions of the idle thread. -/
@[simp] def Instr.idles : Instr → Bool
  | .resume .created | .resume .yielded | .resume .idled => true
  | .idleStart _ | .idleLoop | .semaUp _ | .checkFront | .threadYield => true
  | _ => false

/-- The last instruction of the idle thread is one of these. -/
@[simp] def Instr.loops : Instr → Bool
  | .idleStart _ | .idleLoop => true
  | _ => false

@[simp] def Instr.creates : Instr → Bool
  | .initThread _ | .create .. => true
  | _ => false

/-- Instructions that concern no thread but `c` and are not the start of the idle thread. -/
@[simp] def Instr.plain (c : ThreadPtr) : Instr → Bool
  | .idleStart _ | .initThread _ | .create .. => false
  | .semaDown (.ofWaiter t) _ => t == c
  | _ => true

namespace Kernel

theorem strictWeak_priority (k : Kernel) : StrictWeak k.threadPriorityGreater :=
  strictWeak_gt fun t => (k.thread t).priority

@[grind cases] structure Lists (k : Kernel) (run : Option ThreadPtr) : Prop where
  running : ∀ t, (k.thread t).status = .running ↔ run = some t
  ready : ∀ t, t ∈ k.readyList ↔ (k.thread t).status = .ready ∧ k.idleThread ≠ some t
  readyNodup : k.readyList.Nodup
  readySorted : Sorted k.threadPriorityGreater k.readyList
  sleeping : ∀ t, t ∈ k.sleepList ↔
    (k.thread t).status = .blocked ∧ (k.thread t).stack.head? = some (.resume .slept)
  sleepNodup : k.sleepList.Nodup
  waiting : ∀ s t, t ∈ (k.sema s).waiters ↔
    (k.thread t).status = .blocked ∧ (k.thread t).stack.head? = some (.semaDown s true)
  waitersNodup : ∀ s, (k.sema s).waiters.Nodup
  all : ∀ t, t ∈ k.allList ↔ t < k.created ∧ (k.thread t).status ≠ .dying
  allNodup : k.allList.Nodup

@[grind cases] structure Stacks (k : Kernel) : Prop where
  unborn : ∀ t, k.created ≤ t → (k.thread t).status = .blocked ∧ (k.thread t).stack = []
  idlePtr : k.idleThread = none ∨ k.idleThread = some bootIdle
  idleInstrs : ∀ i ∈ (k.thread bootIdle).stack, i.idles = true
  idleLast : (k.thread bootIdle).stack.getLast? = some .idleLoop ∨
    ∃ s, (k.thread bootIdle).stack.getLast? = some (.idleStart s)
  idleAlive : (k.thread bootIdle).status ≠ .dying
  idleStart : ∀ t s, .idleStart s ∈ (k.thread t).stack → t = bootIdle
  ownWaiter : ∀ t u r, .semaDown (.ofWaiter u) r ∈ (k.thread t).stack → u = t
  creating : ∀ u st t p, .create st t p ∈ (k.thread u).stack → t < k.created ∧
    (k.thread t).status = .blocked ∧ (k.thread t).stack = [.resume .created]
  creatingOnce : ∀ u, (k.thread u).stack.countP Instr.creates ≤ 1
  creatingUnique : ∀ u u' st st' t p p', .create st t p ∈ (k.thread u).stack →
    .create st' t p' ∈ (k.thread u').stack → u = u'
  holders : ∀ l h, k.holder l = some h → h ≠ bootIdle

/-- What an instruction leaves alone when it neither blocks nor wakes anyone:
everything the scheduler reads, except the running thread's own code and priority. -/
@[grind cases] structure Quiet (k k' : Kernel) : Prop where
  current : k'.current = k.current
  created : k'.created = k.created
  idleThread : k'.idleThread = k.idleThread
  readyList : k'.readyList = k.readyList
  allList : k'.allList = k.allList
  sleepList : k'.sleepList = k.sleepList
  waiters : ∀ s, (k'.sema s).waiters = (k.sema s).waiters
  status : ∀ t, (k'.thread t).status = (k.thread t).status
  stack : ∀ t, t ≠ k.current → (k'.thread t).stack = (k.thread t).stack
  priority : ∀ t, t ≠ k.current → (k'.thread t).priority = (k.thread t).priority

variable {k k' k1 : Kernel} {next c t : ThreadPtr} {rest : List ThreadPtr} {run : Option ThreadPtr}
  {new : List Instr} {i : Instr}

theorem sorted_congr {l : List ThreadPtr}
    (eq : ∀ t ∈ l, (k'.thread t).priority = (k.thread t).priority)
    (sorted : Sorted k.threadPriorityGreater l) : Sorted k'.threadPriorityGreater l := by
  refine Pairwise.imp_of_mem ?_ sorted
  intro a b ha hb h
  simpa only [threadPriorityGreater, eq a ha, eq b hb] using h

theorem Quiet.lists (hq : Quiet k k') (lists : Lists k (some k.current)) :
    Lists k' (some k'.current) := by
  have notReady : k.current ∉ k.readyList := by
    intro h
    have := ((lists.ready _).mp h).1
    simp [(lists.running _).mpr rfl] at this
  constructor
  case running => intro t; rw [hq.status, hq.current]; exact lists.running t
  case ready => intro t; rw [hq.status, hq.readyList, hq.idleThread]; exact lists.ready t
  case readyNodup => rw [hq.readyList]; exact lists.readyNodup
  case readySorted =>
    rw [hq.readyList]
    refine sorted_congr (fun t ht => hq.priority t ?_) lists.readySorted
    rintro rfl
    exact notReady ht
  case sleeping => grind
  case sleepNodup => rw [hq.sleepList]; exact lists.sleepNodup
  case waiting => grind
  case waitersNodup => intro s; rw [hq.waiters]; exact lists.waitersNodup s
  case all => intro t; rw [hq.status, hq.allList, hq.created]; exact lists.all t
  case allNodup => rw [hq.allList]; exact lists.allNodup

/-- The idle thread waits for nothing, so it can be given the CPU at any time. -/
def IdleOff (k : Kernel) : Prop :=
  ∀ t, k.idleThread = some t → t ∉ k.sleepList ∧ (∀ s, t ∉ (k.sema s).waiters) ∧
    (k.thread t).status ≠ .dying

theorem next_mem (h : k.nextThreadToRun = some (next, rest)) :
    k.readyList = next :: rest ∨ k.readyList = [] ∧ k.idleThread = some next ∧ rest = [] := by
  unfold nextThreadToRun at h
  split at h
  · rename_i empty
    obtain ⟨t, hi, eq⟩ := Option.map_eq_some_iff.mp h
    cases eq
    exact .inr ⟨empty, hi, rfl⟩
  · rename_i t tail nonempty
    cases h
    exact .inl nonempty

theorem Lists.switch (lists : Lists k none) (hi : IdleOff k)
    (h : k.nextThreadToRun = some (next, rest)) : Lists (k.switchTo next rest) (some next) := by
  have off : next ∉ k.sleepList ∧ (∀ s, next ∉ (k.sema s).waiters) ∧
      (k.thread next).status ≠ .dying := by
    rcases next_mem h with ready | ⟨_, isIdle, _⟩
    · grind
    · exact hi next isIdle
  have rest_iff : ∀ t, t ≠ next → (t ∈ rest ↔ t ∈ k.readyList) := by
    intro t ne
    rcases next_mem h with ready | ⟨ready, _, none⟩
    · simp [ready, ne]
    · simp [ready, none]
  have ha : next ∉ rest := by
    rcases next_mem h with ready | ⟨_, _, none⟩
    · have nodup := lists.readyNodup
      rw [ready] at nodup
      exact (nodup_cons.mp nodup).1
    · simp [none]
  have sub : rest.Sublist k.readyList := by
    rcases next_mem h with ready | ⟨_, _, none⟩
    · rw [ready]; exact sublist_cons_self next rest
    · rw [none]; exact nil_sublist _
  constructor
  case running =>
    intro t
    by_cases eq : t = next
    · simp [switchTo, eq]
    · have := lists.running t
      simp_all [switchTo, Ne.symm eq]
  case ready =>
    intro t
    by_cases eq : t = next
    · simp [switchTo, eq, ha]
    · simp [switchTo, eq, rest_iff t eq, lists.ready t]
  case readyNodup => exact lists.readyNodup.sublist sub
  case readySorted =>
    refine sorted_congr (fun t _ => ?_) (lists.readySorted.sublist sub)
    simp [switchTo]
  case sleeping =>
    intro t
    by_cases eq : t = next
    · simp [switchTo, eq, off.1]
    · simp [switchTo, eq, lists.sleeping t]
  case sleepNodup => exact lists.sleepNodup
  case waiting =>
    intro s t
    by_cases eq : t = next
    · simp [switchTo, eq, off.2.1 s]
    · simp [switchTo, eq, lists.waiting s t]
  case waitersNodup => exact lists.waitersNodup
  case all =>
    intro t
    by_cases eq : t = next
    · simp [switchTo, eq, lists.all next, off.2.2]
    · simp [switchTo, eq, lists.all t]
  case allNodup => exact lists.allNodup

/-- Between `k` and `k'` only thread `c` changes its status, its code or the lists it is in. -/
@[grind cases] structure Change (k k' : Kernel) (c : ThreadPtr) : Prop where
  created : k'.created = k.created
  idleThread : k'.idleThread = k.idleThread
  status : ∀ t, t ≠ c → (k'.thread t).status = (k.thread t).status
  stack : ∀ t, t ≠ c → (k'.thread t).stack = (k.thread t).stack
  ready : ∀ t, t ≠ c → (t ∈ k'.readyList ↔ t ∈ k.readyList)
  sleep : ∀ t, t ≠ c → (t ∈ k'.sleepList ↔ t ∈ k.sleepList)
  waiters : ∀ s t, t ≠ c → (t ∈ (k'.sema s).waiters ↔ t ∈ (k.sema s).waiters)
  all : ∀ t, t ≠ c → (t ∈ k'.allList ↔ t ∈ k.allList)

/-- The lists after a change, from what they say about the changed thread alone. -/
@[grind cases] structure Placed (k : Kernel) (run : Option ThreadPtr) (c : ThreadPtr) : Prop where
  running : (k.thread c).status = .running ↔ run = some c
  ready : c ∈ k.readyList ↔ (k.thread c).status = .ready ∧ k.idleThread ≠ some c
  readyNodup : k.readyList.Nodup
  readySorted : Sorted k.threadPriorityGreater k.readyList
  sleeping : c ∈ k.sleepList ↔
    (k.thread c).status = .blocked ∧ (k.thread c).stack.head? = some (.resume .slept)
  sleepNodup : k.sleepList.Nodup
  waiting : ∀ s, c ∈ (k.sema s).waiters ↔
    (k.thread c).status = .blocked ∧ (k.thread c).stack.head? = some (.semaDown s true)
  waitersNodup : ∀ s, (k.sema s).waiters.Nodup
  all : c ∈ k.allList ↔ c < k.created ∧ (k.thread c).status ≠ .dying
  allNodup : k.allList.Nodup

theorem Change.lists {run' : Option ThreadPtr}
    (change : Change k k' c) (lists : Lists k run) (placed : Placed k' run' c)
    (others : ∀ t, t ≠ c → (run' = some t ↔ run = some t)) : Lists k' run' := by
  constructor <;> grind [Function.update_apply]

theorem Lists.current_off (lists : Lists k (some k.current)) :
    k.current ∉ k.readyList ∧ k.current ∉ k.sleepList ∧
      ∀ s, k.current ∉ (k.sema s).waiters := by
  have running := (lists.running k.current).mpr rfl
  refine ⟨?_, ?_, ?_⟩
  · intro h
    have := ((lists.ready _).mp h).1
    simp [running] at this
  · intro h
    have := ((lists.sleeping _).mp h).1
    simp [running] at this
  · intro s h
    have := ((lists.waiting s _).mp h).1
    simp [running] at this

/-! ## The code left to run -/

/-- What keeps `Stacks` when thread `c` gets the code `code`. -/
@[grind cases] structure CodeOk (k : Kernel) (c : ThreadPtr) (code : List Instr) : Prop where
  idleStart : ∀ s, .idleStart s ∈ code → .idleStart s ∈ (k.thread c).stack
  ownWaiter : ∀ u r, .semaDown (.ofWaiter u) r ∈ code → u = c
  creates : ∀ st t p, .create st t p ∈ code → ∃ st' p', .create st' t p' ∈ (k.thread c).stack
  once : code.countP Instr.creates ≤ 1
  idle : c = bootIdle → (∀ i ∈ code, i.idles = true) ∧
    (code.getLast? = some .idleLoop ∨ ∃ s, code.getLast? = some (.idleStart s))

theorem Stacks.born (ht : Stacks k) (up : (k.thread c).status ≠ .blocked) : c < k.created := by
  by_contra h
  exact up (ht.unborn c (Nat.not_lt.mp h)).1

theorem Stacks.recode {code : List Instr} (ht : Stacks k) (up : (k.thread c).status ≠ .blocked)
    (ok : CodeOk k c code) (created : k'.created = k.created) (hi : k'.idleThread = k.idleThread)
    (status : ∀ t, t ≠ c → (k'.thread t).status = (k.thread t).status)
    (alive : c = bootIdle → (k'.thread c).status ≠ .dying) (self : (k'.thread c).stack = code)
    (stack : ∀ t, t ≠ c → (k'.thread t).stack = (k.thread t).stack)
    (holder : ∀ l h, k'.holder l = some h → k.holder l = some h ∨ h = c ∧ c ≠ bootIdle) :
    Stacks k' := by
  constructor <;> grind [Function.update_apply]

theorem countP_plain (hp : ∀ j ∈ new, j.plain c = true) : new.countP Instr.creates = 0 := by
  rw [countP_eq_zero]
  intro j hj creates
  have := hp j hj
  cases j <;> simp_all [Instr.creates, Instr.plain]

/-- What the code pushed in place of instruction `i` has to satisfy. The idle thread
goes on to instructions of its own and comes back to its loop. -/
@[grind cases] structure Follows (c : ThreadPtr) (i : Instr) (new : List Instr) : Prop where
  plain : ∀ j ∈ new, j.plain c = true
  idles : i.idles = true → ∀ j ∈ new, j.idles = true
  loops : i.loops = true → new.getLast? = some .idleLoop

theorem Follows.of_other (ne : i.idles = false)
    (plain : ∀ j ∈ new, j.plain c = true) : Follows c i new where
  plain := plain
  idles first := by cases ne.symm.trans first
  loops last := by cases i <;> simp_all

theorem Stacks.push (ht : Stacks k) {rest : List Instr} (old : (k.thread c).stack = i :: rest)
    (new : List Instr) (follows : Follows c i new) : CodeOk k c (new ++ rest) where
  idleStart s h := by
    rcases mem_append.mp h with h | h
    · cases follows.plain _ h
    · rw [old]; exact .tail _ h
  ownWaiter u r h := by
    rcases mem_append.mp h with h | h
    · exact eq_of_beq (follows.plain _ h)
    · exact ht.ownWaiter c u r (old ▸ .tail _ h)
  creates st t p h := by
    rcases mem_append.mp h with h | h
    · cases follows.plain _ h
    · exact ⟨st, p, old ▸ .tail _ h⟩
  once := by
    have once := ht.creatingOnce c
    rw [old, countP_cons] at once
    rw [countP_append, countP_plain follows.plain]
    omega
  idle eq := by
    subst eq
    have first := ht.idleInstrs i (old ▸ (.head _))
    refine ⟨?_, ?_⟩
    · grind
    · have was := ht.idleLast
      rw [old] at was
      cases rest with
      | nil =>
        left
        have last : i.loops = true := by
          rcases was with eq | ⟨s, eq⟩ <;> simp at eq <;> simp [eq, Instr.loops]
        simpa using follows.loops last
      | cons r tail =>
        rw [getLast?_cons_cons] at was
        simpa [getLast?_append] using was

@[grind cases] structure Scheduled (k : Kernel) : Prop where
  lists : Lists k (some k.current)
  tidy : Stacks k

theorem Scheduled.up (inv : Scheduled k) : (k.thread k.current).status ≠ .blocked := by
  rw [(inv.lists.running k.current).mpr rfl]
  decide

/-- A thread whose next instruction is none of the idle thread's is not the idle thread. -/
theorem Stacks.busy (ht : Stacks k)
    (first : (k.thread t).stack.head? = some i) (ne : i.idles = false) : t ≠ bootIdle := by
  rintro rfl
  cases ne.symm.trans (ht.idleInstrs i (mem_of_head? first))

theorem Scheduled.quiet (inv : Scheduled k) {rest : List Instr}
    (old : (k.thread k.current).stack = i :: rest) (new : List Instr)
    (follows : Follows k.current i new) (hq : Quiet k k')
    (self : (k'.thread k.current).stack = new ++ rest)
    (holder : ∀ l h, k'.holder l = some h → k.holder l = some h ∨ h = k.current ∧ i.idles = false) :
    Scheduled k' := by
  refine ⟨hq.lists inv.lists, ?_⟩
  refine inv.tidy.recode inv.up (inv.tidy.push old new follows) hq.created hq.idleThread
    (fun t _ => hq.status t) ?_ self hq.stack ?_
  · intro eq
    rw [hq.status, eq]
    exact inv.tidy.idleAlive
  · grind

/-! ## Leaving and entering the CPU -/

theorem Scheduled.idleOff_of (lists : Lists k run) (ht : Stacks k) : IdleOff k := by
  intro t isIdle
  have eq : t = bootIdle := by grind
  subst eq
  have first : ∀ i, (k.thread bootIdle).stack.head? = some i → i.idles = true := by
    intro i hi
    exact ht.idleInstrs i (mem_of_head? hi)
  refine ⟨?_, ?_, ht.idleAlive⟩
  · intro asleep
    cases first _ ((lists.sleeping _).mp asleep).2
  · intro s queued
    cases first _ ((lists.waiting s _).mp queued).2

theorem Stacks.switch (tidy : Stacks k) (lists : Lists k none)
    (h : k.nextThreadToRun = some (next, rest)) : Stacks (k.switchTo next rest) := by
  have notNew : ∀ u st p, .create st next p ∉ (k.thread u).stack := by
    intro u st p new
    obtain ⟨_, blocked, stack⟩ := tidy.creating u st next p new
    rcases next_mem h with ready | ⟨_, isIdle, _⟩
    · have := ((lists.ready next).mp (by simp [ready])).1
      simp [blocked] at this
    · grind
  have hb : next < k.created := by
    by_contra unborn
    obtain ⟨blocked, stack⟩ := tidy.unborn next (Nat.not_lt.mp unborn)
    rcases next_mem h with ready | ⟨_, isIdle, _⟩
    · have := ((lists.ready next).mp (by simp [ready])).1
      simp [blocked] at this
    · grind
  constructor
  case unborn =>
    intro t ht
    have ne : t ≠ next := by rintro rfl; exact Nat.not_lt.mpr ht hb
    simpa [switchTo, ne] using tidy.unborn t ht
  case idlePtr => exact tidy.idlePtr
  case idleInstrs => simpa [switchTo] using tidy.idleInstrs
  case idleLast => simpa [switchTo] using tidy.idleLast
  case idleAlive =>
    by_cases eq : bootIdle = next
    · simp [switchTo, eq]
    · simpa [switchTo, eq] using tidy.idleAlive
  case idleStart => simpa [switchTo] using tidy.idleStart
  case ownWaiter => simpa [switchTo] using tidy.ownWaiter
  case creating =>
    intro u st t p h'
    have was : .create st t p ∈ (k.thread u).stack := by simpa [switchTo] using h'
    have ne : t ≠ next := by rintro rfl; exact notNew u st p was
    simpa [switchTo, ne] using tidy.creating u st t p was
  case creatingOnce => simpa [switchTo] using tidy.creatingOnce
  case creatingUnique => simpa [switchTo] using tidy.creatingUnique
  case holders => exact tidy.holders

theorem scheduled_of_left (lists : Lists k none) (ht : Stacks k)
    (h : k.schedule = some k') : Scheduled k' := by
  obtain ⟨next, rest, eq, rfl⟩ := schedule_eq h
  exact ⟨lists.switch (Scheduled.idleOff_of lists ht) eq, ht.switch lists eq⟩

open Classical in
/-- The running thread leaves the CPU for the one list its new status and its next
instruction name, or for none. -/
theorem Lists.leave (lists : Lists k (some k.current))
    (created : k'.created = k.created) (hi : k'.idleThread = k.idleThread)
    (off : (k'.thread k.current).status ≠ .running)
    (others : ∀ t, t ≠ k.current → (k'.thread t).status = (k.thread t).status ∧
      (k'.thread t).stack = (k.thread t).stack)
    (priority : ∀ t, (k'.thread t).priority = (k.thread t).priority)
    (ready : k'.readyList =
      if (k'.thread k.current).status = .ready ∧ k.idleThread ≠ some k.current then
        insertOrdered k.threadPriorityGreater k.current k.readyList
      else k.readyList)
    (sleep : k'.sleepList.Perm
      (if (k'.thread k.current).status = .blocked ∧
          (k'.thread k.current).stack.head? = some (.resume .slept) then
        k.current :: k.sleepList else k.sleepList))
    (waiters : ∀ s, (k'.sema s).waiters.Perm
      (if (k'.thread k.current).status = .blocked ∧
          (k'.thread k.current).stack.head? = some (.semaDown s true) then
        k.current :: (k.sema s).waiters else (k.sema s).waiters))
    (all : k'.allList =
      if (k'.thread k.current).status = .dying then k.allList.erase k.current else k.allList) :
    Lists k' none := by
  obtain ⟨offReady, offSleep, offWaiters⟩ := lists.current_off
  have change : Change k k' k.current := by
    constructor
    case created => exact created
    case idleThread => exact hi
    case status => exact fun t ne => (others t ne).1
    case stack => exact fun t ne => (others t ne).2
    case ready => intro t ne; rw [ready]; split <;> simp [ne]
    case sleep => intro t ne; rw [sleep.mem_iff]; split <;> simp [ne]
    case waiters => intro s t ne; rw [(waiters s).mem_iff]; split <;> simp [ne]
    case all => intro t ne; rw [all]; split <;> simp [mem_erase_of_ne, ne]
  refine change.lists lists ?_ (by simp [eq_comm])
  constructor
  case running => simp [off]
  case ready => rw [ready, hi]; split <;> simp_all
  case readyNodup =>
    rw [ready]
    split
    · exact insertOrdered_nodup offReady lists.readyNodup
    · exact lists.readyNodup
  case readySorted =>
    refine sorted_congr (fun t _ => priority t) ?_
    rw [ready]
    split
    · exact insertOrdered_sorted k.strictWeak_priority _ lists.readySorted
    · exact lists.readySorted
  case sleeping => rw [sleep.mem_iff]; split <;> simp_all
  case sleepNodup => grind
  case waiting => intro s; rw [(waiters s).mem_iff]; split <;> simp_all
  case waitersNodup => grind
  case all => grind
  case allNodup =>
    rw [all]
    split
    · exact lists.allNodup.erase _
    · exact lists.allNodup

/-- `thread_unblock` on a thread that has just been taken off the list it waited in. -/
theorem Lists.wake
    (lists : Lists k run) (hb : k.idleThread ≠ some t)
    (thread : k1.thread = k.thread) (created : k1.created = k.created)
    (hi : k1.idleThread = k.idleThread) (ready : k1.readyList = k.readyList)
    (all : k1.allList = k.allList)
    (sleep : k.sleepList.Perm k1.sleepList ∧ t ∉ k.sleepList ∨
      k.sleepList.Perm (t :: k1.sleepList))
    (waiters : ∀ s, (k.sema s).waiters.Perm (k1.sema s).waiters ∧ t ∉ (k.sema s).waiters ∨
      (k.sema s).waiters.Perm (t :: (k1.sema s).waiters))
    (h : k1.threadUnblock t = some k') : Lists k' run := by
  obtain ⟨blocked, rfl⟩ := threadUnblock_eq h
  rw [thread] at blocked
  have offReady : t ∉ k.readyList := by
    intro queued
    have := ((lists.ready t).mp queued).1
    simp [blocked] at this
  have offRun : run ≠ some t := by
    intro hp
    have := (lists.running t).mpr hp
    simp [blocked] at this
  have eq : k1.threadPriorityGreater = k.threadPriorityGreater := by
    unfold threadPriorityGreater; rw [thread]
  have change : Change k ((k1.readyInsert t).setStatus t .ready) t := by
    constructor
    case created => exact created
    case idleThread => exact hi
    case status => intro u ne; simp [thread, ne]
    case stack => intro u _; simp [thread]
    case ready => intro u ne; simp [ne, ready]
    case sleep =>
      intro u ne
      rcases sleep with ⟨perm, _⟩ | perm <;> simp [perm.mem_iff, ne]
    case waiters =>
      intro s u ne
      rcases waiters s with ⟨perm, _⟩ | perm <;> simp [perm.mem_iff, ne]
    case all => intro u _; simp [all]
  refine change.lists lists ?_ (fun _ _ => Iff.rfl)
  constructor
  case running => simp [offRun]
  case ready => simp [hi, hb]
  case readyNodup =>
    simpa [ready] using insertOrdered_nodup offReady lists.readyNodup
  case readySorted =>
    refine sorted_congr (k := k) (fun u _ => by simp [thread]) ?_
    simp only [setStatus, modify_readyList, readyInsert_readyList, ready, eq]
    exact insertOrdered_sorted k.strictWeak_priority _ lists.readySorted
  case sleeping =>
    rcases sleep with ⟨perm, ha⟩ | perm
    · simpa [← perm.mem_iff] using ha
    · simpa using (nodup_cons.mp (perm.nodup_iff.mp lists.sleepNodup)).1
  case sleepNodup =>
    rcases sleep with ⟨perm, _⟩ | perm
    · exact perm.nodup_iff.mp lists.sleepNodup
    · exact (nodup_cons.mp (perm.nodup_iff.mp lists.sleepNodup)).2
  case waiting =>
    intro s
    rcases waiters s with ⟨perm, ha⟩ | perm
    · simpa [← perm.mem_iff] using ha
    · simpa using (nodup_cons.mp (perm.nodup_iff.mp (lists.waitersNodup s))).1
  case waitersNodup =>
    intro s
    rcases waiters s with ⟨perm, _⟩ | perm
    · exact perm.nodup_iff.mp (lists.waitersNodup s)
    · exact (nodup_cons.mp (perm.nodup_iff.mp (lists.waitersNodup s))).2
  case all => simp [all, created, lists.all t, blocked]
  case allNodup => simpa [all] using lists.allNodup

theorem Stacks.wake (ht : Stacks k) (started : ∀ u st p, .create st t p ∉ (k.thread u).stack)
    (hb : t < k.created) (thread : k1.thread = k.thread) (created : k1.created = k.created)
    (hi : k1.idleThread = k.idleThread) (holder : k1.holder = k.holder)
    (h : k1.threadUnblock t = some k') : Stacks k' := by
  obtain ⟨blocked, rfl⟩ := threadUnblock_eq h
  constructor
  case unborn =>
    intro u hu
    have old : k.created ≤ u := by simpa [created] using hu
    have ne : u ≠ t := by rintro rfl; exact Nat.not_lt.mpr old hb
    simpa [thread, ne] using ht.unborn u old
  case idlePtr => simpa [hi] using ht.idlePtr
  case idleInstrs => simpa [thread] using ht.idleInstrs
  case idleLast => simpa [thread] using ht.idleLast
  case idleAlive =>
    by_cases eq : bootIdle = t
    · simp [eq]
    · simpa [thread, eq] using ht.idleAlive
  case idleStart => simpa [thread] using ht.idleStart
  case ownWaiter => simpa [thread] using ht.ownWaiter
  case creating =>
    intro u st v p h'
    have was : .create st v p ∈ (k.thread u).stack := by simpa [thread] using h'
    have ne : v ≠ t := by rintro rfl; exact started u st p was
    simpa [thread, created, ne] using ht.creating u st v p was
  case creatingOnce => simpa [thread] using ht.creatingOnce
  case creatingUnique => simpa [thread] using ht.creatingUnique
  case holders => simpa [holder] using ht.holders

/-- Waking a thread that waits in a list, or for `thread_unblock` itself. -/
theorem Scheduled.wake (inv : Scheduled k)
    (h : k1.threadUnblock t = some k') (first : (k.thread t).stack.head? = some i)
    (ne : i.idles = false)
    (thread : k1.thread = k.thread) (created : k1.created = k.created)
    (current : k1.current = k.current) (hi : k1.idleThread = k.idleThread)
    (holder : k1.holder = k.holder) (ready : k1.readyList = k.readyList)
    (all : k1.allList = k.allList)
    (sleep : k.sleepList.Perm k1.sleepList ∧ t ∉ k.sleepList ∨
      k.sleepList.Perm (t :: k1.sleepList))
    (waiters : ∀ s, (k.sema s).waiters.Perm (k1.sema s).waiters ∧ t ∉ (k.sema s).waiters ∨
      (k.sema s).waiters.Perm (t :: (k1.sema s).waiters)) : Scheduled k' := by
  have busy : k.idleThread ≠ some t := by
    intro isIdle
    rcases inv.tidy.idlePtr with none | some
    · simp [none] at isIdle
    · exact inv.tidy.busy first ne (Option.some.inj (isIdle.symm.trans some))
  have started : ∀ u st p, .create st t p ∉ (k.thread u).stack := by
    intro u st p new
    rw [(inv.tidy.creating u st t p new).2.2] at first
    cases first
    cases ne
  have hb : t < k.created := by grind
  constructor
  · have keep : k'.current = k1.current := by rw [(threadUnblock_eq h).2]; rfl
    rw [keep, current]
    exact inv.lists.wake busy thread created hi ready all sleep waiters h
  · exact inv.tidy.wake started hb thread created hi holder h

/-- Everything the scheduler reads is kept, except priorities and the order of `ready_list`. -/
@[grind cases] structure Ranked (k k' : Kernel) : Prop where
  current : k'.current = k.current
  created : k'.created = k.created
  idleThread : k'.idleThread = k.idleThread
  readyList : k'.readyList.Perm k.readyList
  allList : k'.allList = k.allList
  sleepList : k'.sleepList = k.sleepList
  waiters : ∀ s, (k'.sema s).waiters = (k.sema s).waiters
  holder : k'.holder = k.holder
  status : ∀ t, (k'.thread t).status = (k.thread t).status
  stack : ∀ t, (k'.thread t).stack = (k.thread t).stack

theorem Ranked.refl (k : Kernel) : Ranked k k := by
  constructor <;> simp

theorem Ranked.trans {k'' : Kernel} (first : Ranked k k') (second : Ranked k' k'') :
    Ranked k k'' where
  current := second.current.trans first.current
  created := second.created.trans first.created
  idleThread := second.idleThread.trans first.idleThread
  readyList := second.readyList.trans first.readyList
  allList := second.allList.trans first.allList
  sleepList := second.sleepList.trans first.sleepList
  waiters s := (second.waiters s).trans (first.waiters s)
  holder := second.holder.trans first.holder
  status t := (second.status t).trans (first.status t)
  stack t := (second.stack t).trans (first.stack t)

theorem Ranked.scheduled (ranked : Ranked k k')
    (sorted : Sorted k'.threadPriorityGreater k'.readyList) (inv : Scheduled k) : Scheduled k' := by
  constructor
  · have lists := inv.lists
    constructor
    case running => intro t; rw [ranked.status, ranked.current]; exact lists.running t
    case ready => grind
    case readyNodup => exact ranked.readyList.nodup_iff.mpr lists.readyNodup
    case readySorted => exact sorted
    case sleeping => intro t; rw
      [ranked.status, ranked.stack, ranked.sleepList]; exact lists.sleeping t
    case sleepNodup => rw [ranked.sleepList]; exact lists.sleepNodup
    case waiting => grind
    case waitersNodup => intro s; rw [ranked.waiters]; exact lists.waitersNodup s
    case all => intro t; rw [ranked.allList, ranked.created, ranked.status]; exact lists.all t
    case allNodup => rw [ranked.allList]; exact lists.allNodup
  · have ht := inv.tidy
    constructor
    case unborn => grind
    case idlePtr => rw [ranked.idleThread]; exact ht.idlePtr
    case idleInstrs => rw [ranked.stack]; exact ht.idleInstrs
    case idleLast => rw [ranked.stack]; exact ht.idleLast
    case idleAlive => rw [ranked.status]; exact ht.idleAlive
    case idleStart => intro t s; rw [ranked.stack]; exact ht.idleStart t s
    case ownWaiter => intro t u r; rw [ranked.stack]; exact ht.ownWaiter t u r
    case creating => grind
    case creatingOnce => intro u; rw [ranked.stack]; exact ht.creatingOnce u
    case creatingUnique => grind
    case holders => rw [ranked.holder]; exact ht.holders

end Kernel

end Pintos.Threads
