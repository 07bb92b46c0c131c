import Pintos.Threads.SchedulerInvariant

/-!
# Every instruction keeps the scheduler's lists

One lemma for each instruction that has an effect of its own: those that leave
the lists alone, those that give up the CPU, those that wake a thread, the stages
of a creation, donation, and the timer.
-/

namespace Pintos.Threads

open Ordered List Option

namespace Kernel

theorem exec_eq {k k' : Kernel} (h : k.exec = some k') :
    ∃ i rest, (k.thread k.current).stack = i :: rest ∧
      (k.setStack k.current rest).execInstr i = some k' := by
  unfold exec at h
  split at h
  · cases h
  · rename_i i rest old
    exact ⟨i, rest, old, h⟩

section
variable {k k' : Kernel} {i : Instr} {rest : List Instr} {t : ThreadPtr} {st st' : Creation}

theorem quiet_setStack (is : List Instr) : Quiet k (k.setStack k.current is) := by
  constructor <;> simp +contextual

/-- The running thread pops an instruction and pushes what it stands for. -/
theorem Scheduled.onward (inv : Scheduled k) (old : k.Next i rest) (new : List Instr)
    (follows : Follows k.current i new) : Scheduled ((k.setStack k.current rest).push new) := by
  refine inv.quiet old new follows ?_ (by simp) (fun l h held => .inl (by simpa using held))
  constructor <;> simp +contextual

theorem Scheduled.done (inv : Scheduled k) (old : k.Next i rest) (straight : i.loops = false) :
    Scheduled (k.setStack k.current rest) := by
  refine inv.quiet old [] ⟨by simp, by simp, fun last => ?_⟩ (quiet_setStack rest) (by simp) ?_
  · cases straight.symm.trans last
  · exact fun l h held => .inl held

/-! ### Instructions that leave the scheduler's lists alone -/

section
variable (inv : Scheduled k) {p n : Int} {e : Option ThreadPtr} {l : LockPtr} {c : CondPtr}
  {stray : ThreadPtr → Int} {s : SemaPtr}
include inv

theorem Scheduled.checkFront (old : k.Next i rest) (straight : i.loops = false) (hq : Quiet k k')
    (self : (k'.thread k.current).stack = rest) (holder : k'.holder = k.holder) : Scheduled
    k'.checkFront := by
  have follows : ∀ new, new = [] ∨ new = [.threadYield] →
      Follows k.current i new := by
    intro new short
    refine ⟨?_, ?_, fun last => ?_⟩
    · rcases short with rfl | rfl <;> simp
    · rcases short with rfl | rfl <;> simp
    · cases straight.symm.trans last
  unfold Kernel.checkFront
  split
  · refine inv.quiet old [.threadYield] (follows _ (.inr rfl)) ?_ (by simp [hq.current, self]) ?_
    · have stack := hq.stack
      constructor <;> simp +contextual [hq.current, hq.created, hq.idleThread,
        hq.readyList, hq.allList, hq.sleepList, hq.waiters, hq.status, hq.stack,
        hq.priority]
    · intro l t held; left; simpa [holder] using held
  · refine inv.quiet old [] (follows _ (.inl rfl)) hq self ?_
    intro l t held; left; simpa [holder] using held

theorem Scheduled.createCheck (old : k.Next (.createCheck p) rest)
    (h : k.Does (.createCheck p) rest k') : Scheduled k' := by
  simp only [Does, execInstr, some.injEq] at h
  subst h
  split
  · exact inv.onward old _ (.of_other rfl (by simp))
  · exact inv.done old rfl

theorem Scheduled.timerSleep (old : k.Next (.timerSleep n) rest)
    (h : k.Does (.timerSleep n) rest k') : Scheduled k' := by
  simp only [Does, execInstr, some.injEq] at h
  subst h
  split
  · exact inv.done old rfl
  · exact inv.onward old _ (.of_other rfl (by simp))

theorem Scheduled.setBase (old : k.Next (.setBase p) rest)
    (h : k.Does (.setBase p) rest k') : Scheduled k' := by
  simp only [Does, execInstr, some.injEq] at h
  subst h
  split
  · exact inv.done old rfl
  · refine inv.quiet old [.updatePriority, .checkFront] (.of_other rfl (by simp)) ?_ (by simp) ?_
    · constructor <;> simp +contextual
    · simp +contextual

theorem Scheduled.maxDonation {m : Int}
    (old : k.Next (.maxDonation e m) rest) (h : k.Does (.maxDonation e m) rest k') : Scheduled k' :=
    by
  cases e with
  | none =>
    simp only [Does, execInstr, some.injEq] at h
    subst h
    refine inv.quiet old [] (.of_other rfl (by simp)) ?_ (by simp) ?_
    · constructor <;> simp +contextual
    · simp +contextual
  | some d =>
    simp only [Does, execInstr, some.injEq] at h
    subst h
    exact inv.onward old _ (.of_other rfl (by simp))

theorem Scheduled.threadSetNice (old : k.Next (.threadSetNice n) rest)
    (h : k.Does (.threadSetNice n) rest k') : Scheduled k' := by
  simp only [Does, execInstr, some.injEq] at h
  subst h
  refine inv.checkFront old rfl ?_ ?_ ?_ <;> unfold mlfqsCalcPriority <;> split
  · constructor <;> simp +contextual
  · constructor <;> simp +contextual
  all_goals simp

theorem Scheduled.lockAcquire (old : k.Next (.lockAcquire l) rest)
    (h : k.Does (.lockAcquire l) rest k') : Scheduled k' := by
  simp only [Does, execInstr] at h
  split_ifs at h <;> cases h
  · exact inv.onward old _ (.of_other rfl (by simp))
  · exact inv.onward old _ (.of_other rfl (by simp))

theorem Scheduled.setWaiting (l : Option LockPtr) (old : k.Next i rest) (ne : i.idles = false) :
    Scheduled ((k.setStack k.current rest).setWaiting k.current l) := by
  refine inv.quiet old [] (.of_other ne (by simp)) ?_ (by simp [Kernel.setWaiting]) ?_
  · constructor <;> simp +contextual [Kernel.setWaiting]
  · simp +contextual [Kernel.setWaiting]

theorem Scheduled.pushDonation (old : k.Next (.pushDonation l) rest)
    (h : k.Does (.pushDonation l) rest k') : Scheduled k' := by
  obtain ⟨holder, held, rfl⟩ := map_eq_some_iff.mp h
  refine inv.quiet old [] (.of_other rfl (by simp)) ?_ (by simp) ?_
  · constructor <;> simp +contextual
  · simp +contextual

theorem Scheduled.setHolder {holder : Option ThreadPtr} (old : k.Next i rest)
    (ne : i.idles = false) (own : ∀ t, holder = some t → t = k.current) : Scheduled
    ((k.setStack k.current rest).setHolder l holder) := by
  refine inv.quiet old [] (.of_other ne (by simp)) ?_ (by simp) ?_
  · constructor <;> simp +contextual
  · intro l' t held
    rw [setHolder_holder, Function.update_apply] at held
    split at held
    · exact .inr ⟨own t held, ne⟩
    · exact .inl held

theorem Scheduled.removeDonation (old : k.Next (.removeDonation l e) rest)
    (h : k.Does (.removeDonation l e) rest k') : Scheduled k' := by
  cases e with
  | none =>
    cases h
    exact inv.done old rfl
  | some d =>
    simp only [Does, execInstr, some.injEq] at h
    subst h
    split
    · refine inv.quiet old [.removeDonation l (listNext (k.thread k.current).donations d)]
        (.of_other rfl (by simp)) ?_ (by simp) ?_
      · constructor <;> simp +contextual
      · simp +contextual
    · exact inv.onward old _ (.of_other rfl (by simp))

/-- The semaphore a thread waits on inside `cond_wait` has no waiter while the thread runs. -/
theorem Scheduled.ownWaiters : (k.sema (.ofWaiter k.current)).waiters = [] := by
  refine eq_nil_iff_forall_not_mem.mpr fun t queued => ?_
  have first := ((inv.lists.waiting _ t).mp queued).2
  obtain rfl := inv.tidy.ownWaiter t _ true (mem_of_head? first)
  exact inv.lists.current_off.2.2 _ queued

theorem Scheduled.condWait (old : k.Next (.condWait c l) rest)
    (h : k.Does (.condWait c l) rest k') : Scheduled k' := by
  simp only [Does, execInstr] at h
  split_ifs at h
  cases h
  refine inv.quiet old [.lockRelease l, .semaDown (.ofWaiter k.current) false, .lockAcquire l]
    (.of_other rfl (by simp)) ?_ (by simp) ?_
  · constructor
    case waiters =>
      intro s
      by_cases eq : s = .ofWaiter k.current
      · simp [eq, inv.ownWaiters]
      · simp [eq]
    all_goals simp +contextual
  · simp +contextual

theorem Scheduled.condSignal (old : k.Next (.condSignal c l stray) rest)
    (h : k.Does (.condSignal c l stray) rest k') : Scheduled k' :=
    by
  simp only [Does, execInstr] at h
  split_ifs at h
  split at h
  · cases h
    exact inv.done old rfl
  · rename_i e waiters _
    cases h
    refine inv.quiet old [.semaUp (.ofWaiter e)] (.of_other rfl (by simp)) ?_ (by simp) ?_
    · constructor <;> simp +contextual
    · simp +contextual

theorem Scheduled.condBroadcast (old : k.Next (.condBroadcast c l stray) rest)
    (h : k.Does (.condBroadcast c l stray) rest k') : Scheduled k' := by
  simp only [Does, execInstr, some.injEq] at h
  subst h
  split
  · exact inv.done old rfl
  · exact inv.onward old _ (.of_other rfl (by simp))

/-- Taking a unit of a semaphore leaves its waiters alone. -/
theorem Scheduled.takeUnit {n : Nat} (old : k.Next i rest) (ne : i.idles = false)
    (new : List Instr) (hp : ∀ j ∈ new, j.plain k.current = true) : Scheduled
    (((k.setStack k.current rest).setSema s { k.sema s with value := n }).push new) := by
  refine inv.quiet old new (.of_other ne hp) ?_ (by simp) ?_
  · constructor
    case waiters =>
      intro s'
      by_cases eq : s' = s
      · simp [eq]
      · simp [eq]
    all_goals simp +contextual
  · simp +contextual

theorem Scheduled.semaTryDown (old : k.Next (.semaTryDown s) rest) : Scheduled
    ((k.setStack k.current rest).semaTryDown s) := by
  simp only [Kernel.semaTryDown]
  split
  · exact inv.takeUnit old rfl _ (by cases s <;> simp [afterTryDown])
  · exact inv.done old rfl

end

/-! ### Instructions that give up the CPU -/

section
variable (inv : Scheduled k) {new : List Instr}
include inv

theorem Scheduled.semaDown {s : SemaPtr} {resumed : Bool} (old : k.Next (.semaDown s resumed) rest)
    (h : (k.setStack k.current rest).semaDown s = some k') : Scheduled k' := by
  simp only [Kernel.semaDown] at h
  split_ifs at h with empty
  · refine scheduled_of_left ?_ ?_ h
    · refine inv.lists.leave rfl rfl (by simp) (by simp +contextual) (by simp) (by simp) (by simp)
        ?_ (by simp)
      intro s'
      by_cases eq : s' = s
      · subst s'; simpa using insertOrdered_perm _ _
      · simp [eq, Ne.symm eq]
    · have own : ∀ u, s = .ofWaiter u → u = k.current := by
        rintro u rfl
        exact inv.tidy.ownWaiter _ u resumed (by simp [old])
      refine inv.tidy.recode inv.up (inv.tidy.push old [.semaDown s true]
        (.of_other rfl ?_)) rfl rfl (by simp +contextual) (by simp) (by simp) (by simp +contextual)
        (by simp +contextual)
      cases s <;> simp_all
  · cases h
    exact inv.takeUnit old rfl _ (by cases s <;> simp [afterDown])

/-- Blocking outside every list, as in a bare `thread_block`. -/
theorem Scheduled.block {w : Wake} (old : k.Next i rest)
    (follows : Follows k.current i (.resume w :: new)) (bare : w ≠ .slept)
    (h : ((k.setStack k.current rest).push (.resume w :: new)).threadBlock = some k') : Scheduled k'
    := by
  refine scheduled_of_left ?_ ?_ h
  · exact inv.lists.leave rfl rfl (by simp) (by simp +contextual) (by simp) (by simp)
      (by simp [bare]) (by simp) (by simp)
  · exact inv.tidy.recode inv.up (inv.tidy.push old _ follows) rfl rfl (by simp +contextual)
      (by simp) (by simp) (by simp +contextual) (by simp +contextual)

theorem Scheduled.threadSleep {w : Int} (old : k.Next (.threadSleep w) rest)
    (h : (k.setStack k.current rest).threadSleep w = some k') : Scheduled k' := by
  simp only [Kernel.threadSleep, threadBlock] at h
  refine scheduled_of_left ?_ ?_ h
  · refine inv.lists.leave rfl rfl (by simp) (by simp +contextual) (by simp) (by simp)
      ?_ (by simp) (by simp)
    simpa using insertOrdered_perm _ _
  · exact inv.tidy.recode inv.up (inv.tidy.push old [.resume .slept] (.of_other rfl (by simp)))
      rfl rfl (by simp +contextual) (by simp) (by simp) (by simp +contextual) (by simp +contextual)

theorem Scheduled.threadExit (old : k.Next .threadExit rest)
    (h : (k.setStack k.current rest).threadExit = some k') : Scheduled k' := by
  unfold Kernel.threadExit at h
  have hb := inv.tidy.busy (by rw [old]; rfl) (rfl : Instr.threadExit.idles = false)
  refine scheduled_of_left ?_ ?_ h
  · exact inv.lists.leave rfl rfl (by simp) (by simp +contextual) (by simp) (by simp)
      (by simp) (by simp) (by simp)
  · exact inv.tidy.recode inv.up (inv.tidy.push old [] (.of_other rfl (by simp))) rfl rfl
      (by simp +contextual) (fun eq => absurd eq hb) (by simp) (by simp +contextual)
      (by simp +contextual)

/-- Code put before what the running thread already has to do. -/
theorem Scheduled.codeOk_push (new : List Instr) (hp : ∀ j ∈ new, j.plain k.current = true)
    (idles : k.current = bootIdle → ∀ j ∈ new, j.idles = true) :
    CodeOk k k.current (new ++ (k.thread k.current).stack) where
  idleStart s h := by
    rcases mem_append.mp h with h | h
    · cases hp _ h
    · exact h
  ownWaiter u r h := by
    rcases mem_append.mp h with h | h
    · exact eq_of_beq (hp _ h)
    · exact inv.tidy.ownWaiter _ u r h
  creates st t p h := by
    rcases mem_append.mp h with h | h
    · cases hp _ h
    · exact ⟨st, p, h⟩
  once := by
    rw [countP_append, countP_plain hp, Nat.zero_add]
    exact inv.tidy.creatingOnce k.current
  idle eq := by
    refine ⟨?_, ?_⟩
    · grind
    · grind

theorem Scheduled.push (hp : ∀ j ∈ new, j.plain k.current = true)
    (idles : k.current = bootIdle → ∀ j ∈ new, j.idles = true) : Scheduled (k.push new) := by
  constructor
  · exact (quiet_setStack _).lists inv.lists
  · exact inv.tidy.recode inv.up (inv.codeOk_push new hp idles) rfl rfl (by simp +contextual)
      (fun eq => by simpa [eq] using inv.tidy.idleAlive) (by simp) (by simp +contextual)
      (by simp +contextual)

theorem Scheduled.threadYield (h : k.threadYield = some k') : Scheduled k' := by
  have code := inv.codeOk_push [.resume .yielded] (by simp) (by simp)
  simp only [Kernel.threadYield] at h
  split_ifs at h with isIdle
  · refine scheduled_of_left ?_ ?_ h
    · refine inv.lists.leave rfl rfl (by simp) (by simp +contextual) (by simp) ?_
        (by simp) (by simp) (by simp)
      have hp : k.idleThread = some k.current := by simpa using isIdle
      simp [hp]
    · exact inv.tidy.recode inv.up code rfl rfl (by simp +contextual) (by simp)
        (by simp) (by simp +contextual) (by simp +contextual)
  · refine scheduled_of_left ?_ ?_ h
    · refine inv.lists.leave rfl rfl (by simp) (by simp +contextual) (by simp) ?_
        (by simp) (by simp) (by simp)
      have hb : k.idleThread ≠ some k.current := by simpa using isIdle
      simp [hb]
    · exact inv.tidy.recode inv.up code rfl rfl (by simp +contextual) (by simp)
        (by simp) (by simp +contextual) (by simp +contextual)

end

/-! ### Instructions that wake other threads -/

theorem Scheduled.semaUp {s : SemaPtr} (inv : Scheduled k) (h : k.semaUp s = some k') :
    Scheduled k' := by
  simp only [Kernel.semaUp] at h
  split at h
  · cases h
    refine Ranked.scheduled (k := k)
      ⟨rfl, rfl, rfl, .refl _, rfl, rfl, ?_, rfl, fun _ => rfl, fun _ => rfl⟩
      inv.lists.readySorted inv
    intro s'
    by_cases eq : s' = s <;> simp [eq]
  · rename_i t others sorted
    have perm : (k.sema s).waiters.Perm (t :: others) := by
      rw [← sorted]; exact (stableSort_perm _).symm
    obtain ⟨blocked, first⟩ := (inv.lists.waiting s t).mp (perm.mem_iff.mpr (.head _))
    refine inv.wake h first rfl rfl rfl rfl rfl rfl rfl rfl ?_ ?_
    · refine .inl ⟨Perm.refl _, ?_⟩
      intro asleep
      have := ((inv.lists.sleeping t).mp asleep).2
      simp [first] at this
    · intro s'
      by_cases eq : s' = s
      · subst s'; exact .inr (by simpa using perm)
      · refine .inl ⟨by simp [eq], ?_⟩
        intro queued
        have := ((inv.lists.waiting s' t).mp queued).2
        simp [first, Ne.symm eq] at this

theorem parked_first (h : k.parked t = true) :
    (k.thread t).stack.head? = some (.resume .blocked) := by
  unfold parked at h
  rw [Bool.and_eq_true] at h
  split at h
  · rename_i code; rw [code]; rfl
  · cases h.2

theorem Scheduled.unpark (inv : Scheduled k) (parked : k.parked t = true)
    (h : k.threadUnblock t = some k') : Scheduled k' := by
  have first := parked_first parked
  refine inv.wake h first rfl rfl rfl rfl rfl rfl rfl rfl ?_ ?_
  · grind
  · grind

/-- Each turn of `thread_wake` takes the front of `sleep_list`. -/
theorem Scheduled.wakeLoop {now : Int} {sleepers : List ThreadPtr} (inv : Scheduled k)
    (hp : k.sleepList = sleepers) (h : Kernel.wakeLoop now sleepers k = some k') :
    Scheduled k' := by
  induction sleepers generalizing k with
  | nil =>
    cases h
    exact inv
  | cons t others ih =>
    unfold Kernel.wakeLoop at h
    split_ifs at h with late
    · cases h
      exact inv
    · obtain ⟨k1, woken, h⟩ := bind_eq_some_iff.mp h
      obtain ⟨blocked, first⟩ := (inv.lists.sleeping t).mp (by simp [hp])
      have inv1 : Scheduled k1 := by
        refine inv.wake woken first rfl rfl rfl rfl rfl rfl rfl rfl (.inr (by simp [hp])) ?_
        refine fun s => .inl ⟨Perm.refl _, ?_⟩
        intro queued
        have := ((inv.lists.waiting s t).mp queued).2
        simp [first] at this
      refine ih inv1 ?_ h
      rw [(threadUnblock_eq woken).2]
      rfl

/-! ### Creating a thread -/

/-- What `init_thread` does to the state: the next record is filled in and linked,
and the thread that creates goes on to `code`. -/
@[grind cases] structure Born (k k' : Kernel) (code : List Instr) : Prop where
  current : k'.current = k.current
  created : k'.created = k.created + 1
  idleThread : k'.idleThread = k.idleThread
  readyList : k'.readyList = k.readyList
  allList : k'.allList = k.allList ++ [k.created]
  sleepList : k'.sleepList = k.sleepList
  sema : k'.sema = k.sema
  holder : k'.holder = k.holder
  newStatus : (k'.thread k.created).status = .blocked
  newStack : (k'.thread k.created).stack = [.resume .created]
  status : ∀ t, t ≠ k.created → (k'.thread t).status = (k.thread t).status
  priority : ∀ t, t ≠ k.created → (k'.thread t).priority = (k.thread t).priority
  stack : ∀ t, t ≠ k.created → t ≠ k.current → (k'.thread t).stack = (k.thread t).stack
  self : (k'.thread k.current).stack = code

theorem Born.lists {code : List Instr} (hb : Born k k' code) (inv : Scheduled k) :
    Lists k' (some k'.current) := by
  have lists := inv.lists
  obtain ⟨blocked, empty⟩ := inv.tidy.unborn k.created (Nat.le_refl _)
  have running := (lists.running k.current).mpr rfl
  have hf : k.current ≠ k.created := Nat.ne_of_lt (inv.tidy.born inv.up)
  constructor
  case running => grind
  case ready => grind
  case readyNodup => rw [hb.readyList]; exact lists.readyNodup
  case readySorted =>
    rw [hb.readyList]
    refine sorted_congr (fun t ht => hb.priority t ?_) lists.readySorted
    rintro rfl
    have := ((lists.ready _).mp ht).1
    simp [blocked] at this
  case sleeping => grind
  case sleepNodup => rw [hb.sleepList]; exact lists.sleepNodup
  case waiting =>
    intro s t
    rw [hb.sema, lists.waiting s t]
    by_cases eq : t = k.created
    · simp [eq, hb.newStack, empty]
    · grind
  case waitersNodup => rw [hb.sema]; exact lists.waitersNodup
  case all => grind
  case allNodup => grind

theorem Born.stacks {p : Int}
    (hb : Born k k' (.lockAcquire tidLock :: .create .allocate k.created p :: rest))
    (inv : Scheduled k) (old : k.Next (.initThread p) rest) : Stacks k' := by
  have ht := inv.tidy
  obtain ⟨blocked, empty⟩ := inv.tidy.unborn k.created (Nat.le_refl _)
  have busy := ht.busy (by rw [old]; rfl) (rfl : (Instr.initThread p).idles = false)
  have idleBorn : bootIdle ≠ k.created := by
    intro eq
    have last := inv.tidy.idleLast
    simp [eq, empty] at last
  have idleStack := hb.stack bootIdle idleBorn busy.symm
  have once : rest.countP Instr.creates = 0 := by
    have := ht.creatingOnce k.current
    rw [old, countP_cons] at this
    simpa using this
  -- An instruction after the step that was not there before is one of those pushed.
  have was : ∀ t i, i ∈ (k'.thread t).stack → i ∈ (k.thread t).stack ∨
      i = .resume .created ∨ i = .lockAcquire tidLock ∨
      t = k.current ∧ i = .create .allocate k.created p := by
    intro t i h
    by_cases eq : t = k.created
    · subst eq; rw [hb.newStack] at h; simp_all
    · grind
  constructor
  case unborn => grind
  case idlePtr => rw [hb.idleThread]; exact ht.idlePtr
  case idleInstrs => rw [idleStack]; exact ht.idleInstrs
  case idleLast => rw [idleStack]; exact ht.idleLast
  case idleAlive => rw [hb.status _ idleBorn]; exact ht.idleAlive
  case idleStart =>
    intro t s h
    exact ht.idleStart t s (by simpa using was t _ h)
  case ownWaiter =>
    intro t u r h
    exact ht.ownWaiter t u r (by simpa using was t _ h)
  case creating => grind
  case creatingOnce =>
    intro u
    by_cases eq : u = k.created
    · rw [eq, hb.newStack]; simp
    · by_cases hp : u = k.current
      · rw [hp, hb.self]; simp [countP_cons, once]
      · rw [hb.stack u eq hp]; exact ht.creatingOnce u
  case creatingUnique => grind
  case holders => rw [hb.holder]; exact ht.holders

theorem Scheduled.born_initThread {p : Int} (inv : Scheduled k) (h : k.Does (.initThread p) rest k')
    : Born k k' (.lockAcquire tidLock :: .create .allocate k.created p :: rest) ∧
    (k'.thread k.created).priority = p := by
  simp only [Does, execInstr] at h
  split_ifs at h
  have hf : k.current ≠ k.created := Nat.ne_of_lt (inv.tidy.born inv.up)
  cases h
  refine ⟨?_, by simp [modify_thread, hf.symm, Kernel.initThread]⟩
  constructor
  case newStatus => simp [modify_thread, hf, hf.symm, Kernel.initThread]
  case newStack => simp [modify_thread, hf.symm, Kernel.initThread]
  case self => simp [modify_thread, hf]
  case status =>
    intro t ne
    by_cases hp : t = k.current <;> simp [modify_thread, hp, hf, ne]
  case priority =>
    intro t ne
    by_cases hp : t = k.current <;> simp [modify_thread, hp, hf, ne]
  case stack => intro t ne other; simp [modify_thread, ne, other]
  all_goals rfl

theorem Scheduled.initThread {p : Int} (inv : Scheduled k) (old : k.Next (.initThread p) rest)
    (h : k.Does (.initThread p) rest k') : Scheduled k' := by
  obtain ⟨hb, _⟩ := inv.born_initThread h
  exact ⟨hb.lists inv, hb.stacks inv old⟩

/-- The creation in progress goes on to its next stage. -/
theorem Stacks.recreate {p : Int} (ht : Stacks k) (old : k.Next (.create st t p) rest)
    {new : List Instr} (hp : ∀ j ∈ new, j.plain k.current = true) : CodeOk k k.current
    (new ++ .create st' t p :: rest) where
  idleStart s h := by
    simp only [mem_append, mem_cons, reduceCtorEq, false_or] at h
    rcases h with h | h
    · cases hp _ h
    · rw [old]; exact .tail _ h
  ownWaiter u r h := by
    simp only [mem_append, mem_cons, reduceCtorEq, false_or] at h
    rcases h with h | h
    · exact eq_of_beq (hp _ h)
    · exact ht.ownWaiter _ u r (old ▸ .tail _ h)
  creates st'' u q h := by
    rw [old]
    simp only [mem_append, mem_cons] at h
    rcases h with h | h | h
    · cases hp _ h
    · cases h
      exact ⟨st, p, (.head _)⟩
    · exact ⟨st'', q, .tail _ h⟩
  once := by
    have once := ht.creatingOnce k.current
    rw [old] at once
    rw [countP_append, countP_plain hp]
    simpa [countP_cons] using once
  idle eq := absurd eq (ht.busy (old ▸ rfl) (rfl : (Instr.create st t p).idles = false))

theorem Scheduled.recreate {p : Int} (inv : Scheduled k) (old : k.Next (.create st t p) rest)
    (new : List Instr) (hp : ∀ j ∈ new, j.plain k.current = true) (hq : Quiet k k')
    (self : (k'.thread k.current).stack = new ++ .create st' t p :: rest)
    (holder : k'.holder = k.holder) : Scheduled k' := by
  refine ⟨hq.lists inv.lists, ?_⟩
  refine inv.tidy.recode inv.up (inv.tidy.recreate old hp) hq.created hq.idleThread
    (fun u _ => hq.status u) ?_ self hq.stack ?_
  · intro eq
    rw [hq.status, eq]
    exact inv.tidy.idleAlive
  · intro l h held; left; rw [← holder]; exact held

/-- The new thread becomes ready. -/
theorem Scheduled.createUnblock {p : Int} (inv : Scheduled k)
    (old : k.Next (.create .unblock t p) rest)
    (h : (k.setStack k.current rest).threadUnblock t = some k') : Scheduled k' ∧ k'.current =
    k.current := by
  have mem : .create .unblock t p ∈ (k.thread k.current).stack := by rw [old]; exact (.head _)
  obtain ⟨hb, blocked, code⟩ := inv.tidy.creating _ _ _ _ mem
  have inv1 := inv.done old rfl
  have keep : k'.current = k.current := by rw [(threadUnblock_eq h).2]; rfl
  have ne : t ≠ k.current := by rintro rfl; exact inv.up blocked
  have started : ∀ u st q, .create st t q ∉ ((k.setStack k.current rest).thread u).stack := by
    intro u st q new
    by_cases hp : u = k.current
    · subst hp
      have once := inv.tidy.creatingOnce k.current
      rw [old, countP_cons] at once
      have none : rest.countP Instr.creates = 0 := by simpa using once
      exact countP_eq_zero.mp none _ (by simpa using new) rfl
    · have was : .create st t q ∈ (k.thread u).stack := by simpa [hp] using new
      exact hp (inv.tidy.creatingUnique _ _ _ _ _ _ _ was mem)
  have busy : k.idleThread ≠ some t := by grind
  refine ⟨⟨?_, inv1.tidy.wake started hb rfl rfl rfl rfl h⟩, keep⟩
  rw [keep]
  refine inv1.lists.wake busy rfl rfl rfl rfl rfl ?_ ?_ h
  · refine .inl ⟨Perm.refl _, fun asleep => ?_⟩
    have := ((inv.lists.sleeping t).mp asleep).2
    simp [code] at this
  · refine fun s => .inl ⟨Perm.refl _, fun queued => ?_⟩
    have := ((inv.lists.waiting s t).mp queued).2
    simp [code] at this

theorem Scheduled.create {p : Int} (inv : Scheduled k)
    (old : k.Next (.create st t p) rest) (h : k.Does (.create st t p) rest k') : Scheduled k' := by
  have hb := inv.tidy.busy (by rw [old]; rfl) (rfl : (Instr.create st t p).idles = false)
  cases st with
  | allocate =>
    simp only [Does, execInstr, some.injEq] at h
    subst h
    refine inv.recreate old [.lockRelease tidLock] (by simp) ?_ (by simp; rfl) (by simp)
    constructor <;> simp +contextual
  | store tid =>
    simp only [Does, execInstr, some.injEq] at h
    subst h
    refine inv.recreate old [] (by simp) ?_ (by simp; rfl) (by simp)
    constructor <;> simp +contextual
  | unblock =>
    obtain ⟨k1, woken, rfl⟩ := map_eq_some_iff.mp h
    obtain ⟨inv1, keep⟩ := inv.createUnblock old woken
    exact inv1.push (by simp) (fun eq => absurd (keep ▸ eq) hb)

/-! ### Donation, the idle thread and the timer -/

theorem raise_ranked (inv : Scheduled k) (p : Int) (hb : t ≠ bootIdle) :
    Ranked k (k.raise t p) ∧
      Sorted (k.raise t p).threadPriorityGreater (k.raise t p).readyList := by
  have notIdle : k.idleThread ≠ some t := by grind
  by_cases ready : (k.thread t).status = .ready
  · have mem : t ∈ k.readyList := (inv.lists.ready t).mpr ⟨ready, notIdle⟩
    have hm : (k.raise t p).readyList =
        insertOrdered (k.raise t p).threadPriorityGreater t (k.readyList.erase t) := by
      rw [raise_readyList, if_pos ready]
    constructor
    · constructor
      case readyList =>
        rw [hm]
        exact (insertOrdered_perm _ _).trans (perm_cons_erase mem).symm
      all_goals simp
    · rw [hm]
      refine insertOrdered_sorted (strictWeak_priority _) _ ?_
      refine sorted_congr ?_ (inv.lists.readySorted.sublist erase_sublist)
      intro u hu
      have ne : u ≠ t := ((inv.lists.readyNodup.mem_erase_iff).mp hu).1
      simp [ne]
  · have hk : (k.raise t p).readyList = k.readyList := by
      rw [raise_readyList, if_neg ready]
    constructor
    · constructor <;> simp [hk]
    · rw [hk]
      refine sorted_congr ?_ inv.lists.readySorted
      intro u hu
      have ne : u ≠ t := by
        rintro rfl
        exact ready ((inv.lists.ready u).mp hu).1
      simp [ne]

theorem Scheduled.donateLoop (inv : Scheduled k) (depth : Nat) (t : ThreadPtr) :
    Scheduled (Kernel.donateLoop depth k t).1 ∧ Ranked k (Kernel.donateLoop depth k t).1 := by
  induction depth generalizing k t with
  | zero => exact ⟨inv, Ranked.refl k⟩
  | succ depth ih =>
    unfold Kernel.donateLoop
    split
    · exact ⟨inv, Ranked.refl k⟩
    · rename_i k1 holder step
      obtain ⟨l, _, held, _, rfl⟩ := donateStep_eq step
      obtain ⟨ranked, sorted⟩ := raise_ranked inv (k.thread t).priority
        (inv.tidy.holders l holder held)
      obtain ⟨inv', ranked'⟩ := ih (ranked.scheduled sorted inv) holder
      exact ⟨inv', ranked.trans ranked'⟩

theorem Scheduled.idleStart {started : Nat} (inv : Scheduled k)
    (old : k.Next (.idleStart started) rest) (h : k.Does (.idleStart started) rest k') : Scheduled
    k' := by
  simp only [Does, execInstr, some.injEq] at h
  have hp : k.current = bootIdle := inv.tidy.idleStart _ started (by rw [old]; exact (.head _))
  have follows : Follows k.current (.idleStart started) [.semaUp (.named started), .idleLoop] :=
    ⟨by simp, by simp, by simp⟩
  have inv1 : Scheduled ((k.setStack k.current rest).push [.semaUp (.named started), .idleLoop]) :=
    inv.onward old _ follows
  have running := (inv1.lists.running k.current).mpr rfl
  subst h
  constructor
  · refine { inv1.lists with ready := fun t => ?_ }
    refine (inv1.lists.ready t).trans (and_congr_right fun ready => ?_)
    have ne : k.current ≠ t := by
      rintro rfl
      cases running.symm.trans ready
    have off : k.idleThread ≠ some t := by grind
    exact iff_of_true off (by simpa using ne)
  · exact { inv1.tidy with idlePtr := .inr (congrArg some hp) }

theorem threadForeach_ranked {f : Kernel → ThreadPtr → Kernel} (each : ∀ k t, Ranked k (f k t)) :
    Ranked k (k.threadForeach f) := by
  unfold threadForeach
  generalize k.allList = all
  induction all generalizing k with
  | nil => exact Ranked.refl k
  | cons t all ih => exact (each k t).trans ih

theorem updateAllPriorities_ranked : Ranked k k.mlfqsUpdateAllPriorities := by
  have each : ∀ k t, Ranked k (mlfqsCalcPriority k t) := by
    intro k t
    unfold mlfqsCalcPriority
    split
    · exact Ranked.refl k
    · constructor <;> simp
  have ranked : Ranked k (k.threadForeach mlfqsCalcPriority) := threadForeach_ranked each
  exact { ranked with readyList := (stableSort_perm _).trans ranked.readyList }

theorem updateLoadAvg_ranked : Ranked k k.mlfqsUpdateLoadAvgAndRecentCpu := by
  have each : ∀ k t, Ranked k (mlfqsCalcRecentCpu k t) := by
    intro k t
    unfold mlfqsCalcRecentCpu
    split
    · exact Ranked.refl k
    · constructor <;> simp
  have load : ∀ load, Ranked k { k with loadAvg := load } := by
    intro load
    constructor <;> simp
  exact (load _).trans (threadForeach_ranked each)

/-- The tick counted for the running thread changes no priority. -/
theorem recentCpu_ranked :
    Ranked k (k.modify k.current fun th =>
      { th with recentCpu := int32 (fpAddInt th.recentCpu 1) }) := by
  constructor <;> simp

theorem threadTick_ranked : Ranked k k.threadTick := by
  have hc : ∀ n m, Ranked k { k with currentTicks := n, threadTicks := m } := by
    intro n m
    constructor <;> simp
  have ticked : ∀ k : Kernel, Ranked k k.mlfqsTick := by
    intro k
    simp only [mlfqsTick]
    split_ifs
    · exact updateLoadAvg_ranked.trans updateAllPriorities_ranked
    · exact updateAllPriorities_ranked
    · exact Ranked.refl k
    · exact recentCpu_ranked.trans (updateLoadAvg_ranked.trans updateAllPriorities_ranked)
    · exact recentCpu_ranked.trans updateAllPriorities_ranked
    · exact recentCpu_ranked
  simp only [threadTick]
  split
  · exact (hc _ _).trans (ticked _)
  · exact hc _ _

theorem threadTick_sorted (sorted : Sorted k.threadPriorityGreater k.readyList) :
    Sorted k.threadTick.threadPriorityGreater k.threadTick.readyList := by
  have resorted : ∀ k : Kernel, Sorted k.mlfqsUpdateAllPriorities.threadPriorityGreater
      k.mlfqsUpdateAllPriorities.readyList :=
    fun k => stableSort_sorted (strictWeak_priority _) _
  simp only [threadTick]
  split
  · simp only [mlfqsTick]
    split_ifs
    · exact resorted _
    · exact resorted _
    · exact sorted
    · exact resorted _
    · exact resorted _
    · refine sorted_congr (k := k) (fun t _ => ?_) sorted
      simp
  · exact sorted

theorem Scheduled.timerInterrupt {yield : Bool} (inv : Scheduled k)
    (h : k.timerInterrupt = some (k', yield)) : Scheduled k' := by
  obtain ⟨k1, woken, eq⟩ := map_eq_some_iff.mp h
  cases eq
  have ticked : Scheduled { k with ticks := k.ticks + 1 } := by
    refine Ranked.scheduled (k := k) ?_ inv.lists.readySorted inv
    constructor <;> simp
  have inv1 := threadTick_ranked.scheduled (threadTick_sorted ticked.lists.readySorted) ticked
  exact inv1.wakeLoop rfl woken

end

end Kernel

end Pintos.Threads
