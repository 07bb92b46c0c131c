import Pintos.Lib.Counting
import Pintos.Threads.Code

/-!
# Semaphores conserve their count and lose no wakeup

Each semaphore of the kernel, seen as a counting semaphore: the threads in the loop
of `sema_down` are asleep in `waiters`, or woken and about to look at the value
again. Every step of the kernel is a move of every semaphore.
-/

namespace Pintos.Threads

open Ordered List Option

/-- The thread is in the loop of `sema_down`, where interrupts are off. -/
def Instr.retries (s : SemaPtr) : Instr → Bool
  | .semaDown s' true => s' == s
  | _ => false

variable {i : Instr} {new rest : List Instr}

theorem Instr.retries_iff {s : SemaPtr} : i.retries s = true ↔ i = .semaDown s true := by
  unfold Instr.retries
  split <;> simp_all

/-- Nothing interrupts the loop of `sema_down`, so only the next instruction of a
thread can be in it. -/
def LoopOnTop (code : List Instr) : Prop := ∀ s, ∀ j ∈ code.tail, j ≠ .semaDown s true

theorem LoopOnTop.emits (loop : LoopOnTop (i :: rest))
    (he : Emits i new) : LoopOnTop (new ++ rest) := by
  have hi : ∀ s, ∀ j ∈ new.tail, j ≠ .semaDown s true := by
    cases he with
    | downTakes s r => cases s <;> simp [afterDown]
    | tryTakes s => cases s <;> simp [afterTryDown]
    | _ => simp
  intro s j hj
  cases new with
  | nil => exact loop s j (mem_of_mem_tail hj)
  | cons a new =>
    rcases mem_append.mp hj with hj | hj
    · exact hi s j hj
    · exact loop s j hj

theorem LoopOnTop.below (loop : LoopOnTop (i :: rest))
    (s : SemaPtr) : rest.head? ≠ some (.semaDown s true) :=
  fun top => loop s _ (mem_of_mem_head? top) rfl

/-- Only `sema_down` on `s` leads into its loop. -/
theorem LoopOnTop.stays_out {s : SemaPtr} (loop : LoopOnTop (i :: rest)) (he : Emits i new)
    (ne : ∀ r, i ≠ .semaDown s r) : (new ++ rest).head? ≠ some (.semaDown s true) := by
  have under := loop.below s
  cases he with
  | downWaits s' r => rintro top; cases top; exact ne r rfl
  | downTakes s' r => cases s' <;> simp [afterDown, under]
  | tryTakes s' => cases s' <;> simp [afterTryDown, under]
  | _ => simp [under]

/-- Instructions of thread `c` that write semaphore `s`. -/
@[simp] def Instr.reaches (s : SemaPtr) (c : ThreadPtr) : Instr → Bool
  | .semaDown s' _ | .semaTryDown s' | .semaUp s' => s' == s
  | .condWait .. => s == .ofWaiter c
  | _ => false

namespace Kernel

section
variable {k k' : Kernel} {s : SemaPtr} {code : List Instr}

theorem setSema_other {v : Semaphore} {s' : SemaPtr} (ne : s' ≠ s) :
    (k.setSema s' v).sema s = k.sema s := by
  simp [Function.update_of_ne ne.symm]

theorem execInstr_sema (h : k.execInstr i = some k')
    (ha : i.reaches s k.current = false) : k'.sema s = k.sema s := by
  obtain ⟨k1, hw, eq⟩ := execInstr_writes h
  rw [sema_of_fixed eq]
  cases hw with
  | down s' | tryDown s' | up s' =>
    have ne : s' ≠ s := by simpa using ha
    exact setSema_other ne
  | wait c l =>
    have ne : s ≠ .ofWaiter k.current := by simpa using ha
    simp [ne]
  | _ => rfl

theorem LoopOnTop.step {e : Event} (inv : Scheduled k) (was : ∀ t, LoopOnTop (k.thread t).stack)
    (h : k.step e = some k') : ∀ t, LoopOnTop (k'.thread t).stack := by
  have rest : ∀ {code : List Instr}, Recoded k k' code → LoopOnTop code →
      ∀ t, LoopOnTop (k'.thread t).stack := by
    intro code hr loop t
    by_cases hp : t = k.current
    · rw [hp, hr.self]; exact loop
    · rcases hr.others t hp with eq | ⟨_, new⟩
      · rw [eq]; exact was t
      · rw [new]; simp [LoopOnTop]
  cases e with
  | call c =>
    simp only [Kernel.step] at h
    split_ifs at h with free
    have empty := stack_eq_nil free
    have code : LoopOnTop c.code := by cases c <;> simp [LoopOnTop, Call.code]; split <;> simp
    refine rest ?_ code
    cases h
    exact ⟨by simp [empty], by simp +contextual⟩
  | exec =>
    obtain ⟨i, hb, old, h⟩ := exec_eq h
    obtain ⟨new, he, hr⟩ := inv.emits h
    exact rest hr ((old ▸ was k.current).emits he)
  | interrupt i =>
    simp only [Kernel.step] at h
    split_ifs at h with on
    rcases interrupt_recoded h with stays | yields
    · exact rest stays (was _)
    · refine rest yields fun s j hj => ?_
      -- Interrupts are on, so the running thread is not in the loop.
      unfold interruptsOn at on
      have loop := was k.current s
      generalize (k.thread k.current).stack = code at on loop hj
      cases code with
      | nil => simp at hj
      | cons i hb =>
        rcases mem_cons.mp hj with rfl | hj
        · rintro rfl; simp [Instr.interruptsOff] at on
        · exact loop j hj

/-- The thread is in the loop of `sema_down` on `s`. -/
def inLoop (k : Kernel) (s : SemaPtr) (t : ThreadPtr) : Prop :=
  (k.thread t).stack.head? = some (.semaDown s true)

/-- Threads that `sema_up` has unblocked and that have not left the loop of
`sema_down`, nor gone back to sleep in it. -/
def woken (k : Kernel) (s : SemaPtr) : Finset ThreadPtr :=
  (Finset.range k.created).filter fun t =>
    (k.thread t).status ≠ .blocked ∧ (k.thread t).stack.head?.any (Instr.retries s) = true

theorem mem_woken (inv : Scheduled k) {t : ThreadPtr} :
    t ∈ k.woken s ↔ k.inLoop s t ∧ t ∉ (k.sema s).waiters := by
  have top : (k.thread t).stack.head?.any (Instr.retries s) = true ↔ k.inLoop s t := by
    simp [Option.any_eq_true, Instr.retries_iff, inLoop]
  simp only [woken, Finset.mem_filter, Finset.mem_range, top, inv.lists.waiting]
  refine ⟨fun ⟨_, awake, loop⟩ => ⟨loop, fun blocked => awake blocked.1⟩,
    fun ⟨loop, away⟩ => ⟨?_, fun blocked => away ⟨blocked, loop⟩, loop⟩⟩
  by_contra unborn
  have none := (inv.tidy.unborn t (Nat.le_of_not_lt unborn)).2
  simp [inLoop, none] at loop

def semaView (k : Kernel) (s : SemaPtr) : Counting.View ThreadPtr where
  value := (k.sema s).value
  waiting := (k.sema s).waiters.toFinset
  woken := k.woken s

theorem semaView_eq (inv : Scheduled k) {v : Counting.View ThreadPtr}
    (value : (k.sema s).value = v.value) (waiting : (k.sema s).waiters.toFinset = v.waiting)
    (woken : ∀ t, k.inLoop s t ∧ t ∉ (k.sema s).waiters ↔ t ∈ v.woken) : k.semaView s = v := by
  cases v
  simp only [semaView, Counting.View.mk.injEq]
  exact ⟨value, waiting, Finset.ext fun t => (mem_woken inv).trans (woken t)⟩

theorem semaView_same (inv : Scheduled k) (inv' : Scheduled k') (sema : k'.sema s = k.sema s)
    (loop : ∀ t, k'.inLoop s t ↔ k.inLoop s t) : k'.semaView s = k.semaView s := by
  refine semaView_eq inv' (by simp [sema, semaView]) (by simp [sema, semaView]) fun t => ?_
  rw [loop, sema]
  exact (mem_woken inv).symm

/-- Who is in the loop after a step: for the running thread its new code says it. -/
theorem inLoop_of_recoded (inv : Scheduled k) (hr : Recoded k k' code)
    (t : ThreadPtr) : k'.inLoop s t ↔
      if t = k.current then code.head? = some (.semaDown s true) else k.inLoop s t := by
  unfold inLoop
  split_ifs with h
  · rw [h, hr.self]
  · grind

/-- Only `sema_down` on `s` takes a thread into its loop or out of it. -/
theorem inLoop_same (inv : Scheduled k) (loop : LoopOnTop (k.thread k.current).stack)
    (old : k.Next i rest) (he : Emits i new) (hr : Recoded k k' (new ++ rest))
    (ne : ∀ r, i ≠ .semaDown s r) (t : ThreadPtr) : k'.inLoop s t ↔ k.inLoop s t := by
  rw [inLoop_of_recoded inv hr]
  split_ifs with h
  · have was : ¬ k.inLoop s t := by rw [h]; simpa [inLoop, old] using ne true
    exact iff_of_false ((old ▸ loop).stays_out he ne) was
  · rfl

/-- An instruction that does not reach `s` is no move of it. -/
theorem semaView_apart (inv : Scheduled k) (inv' : Scheduled k')
    (loop : LoopOnTop (k.thread k.current).stack) (old : k.Next i rest)
    (ha : i.reaches s k.current = false) (h : k.Does i rest k') : k'.semaView s = k.semaView s :=
    by
  obtain ⟨new, he, hr⟩ := inv.emits h
  have ne : ∀ r, i ≠ .semaDown s r := by rintro r rfl; simp at ha
  exact semaView_same inv inv' (execInstr_sema (k := k.setStack k.current rest) h ha)
    (inLoop_same inv loop old he hr ne)

/-- What `sema_up` does to a semaphore `v`: the value goes up, and one waiter leaves
if there is any. -/
def Upped (v v' : Semaphore) : Prop :=
  v.waiters = [] ∧ v' = ⟨unsigned (v.value + 1), []⟩ ∨
  ∃ t rest, (t :: rest).Perm v.waiters ∧ v' = ⟨unsigned (v.value + 1), rest⟩

theorem semaUp_upped (h : k.semaUp s = some k') : Upped (k.sema s) (k'.sema s) := by
  have perm : (stableSort k.threadPriorityGreater (k.sema s).waiters).Perm (k.sema s).waiters :=
    stableSort_perm _
  simp only [semaUp] at h
  split at h
  · rename_i none
    rw [none] at perm
    have empty := perm_nil.mp perm.symm
    cases h
    exact .inl ⟨empty, by simp [empty]⟩
  · rename_i t rest sorted
    rw [sorted] at perm
    rw [sema_of_fixed (threadUnblock_fixed h)]
    exact .inr ⟨t, rest, perm, by simp⟩

/-- `sema_up`, in a thread or in an interrupt handler, is a move. -/
theorem semaView_up (inv : Scheduled k) (inv' : Scheduled k')
    (loop : ∀ t, k'.inLoop s t ↔ k.inLoop s t) (upped : Upped (k.sema s) (k'.sema s)) :
    Counting.Move (2 ^ 32) (k.semaView s) [.up] (k'.semaView s) := by
  rcases upped with ⟨empty, sema⟩ | ⟨u, rest, perm, sema⟩
  · have view : k'.semaView s =
        { k.semaView s with value := ((k.semaView s).value + 1) % 2 ^ 32 } := by
      refine semaView_eq inv' (sema ▸ rfl) (by simp [sema, semaView, empty]) fun t => ?_
      rw [loop, sema, ← empty]
      exact (mem_woken inv).symm
    rw [view]
    exact .up _ (by simp [semaView, empty])
  · have nodup : (u :: rest).Nodup := perm.nodup_iff.mpr (inv.lists.waitersNodup s)
    have queued : u ∈ (k.sema s).waiters := perm.mem_iff.mp (.head _)
    have asleep : k.inLoop s u := ((inv.lists.waiting s u).mp queued).2
    have view : k'.semaView s = ⟨((k.semaView s).value + 1) % 2 ^ 32,
        (k.semaView s).waiting.erase u, insert u (k.semaView s).woken⟩ := by
      refine semaView_eq inv' (sema ▸ rfl) ?_ fun t => ?_
      · rw [sema]
        simp only [semaView]
        rw [← toFinset_eq_of_perm _ _ perm, toFinset_cons,
          Finset.erase_insert (by simpa using (nodup_cons.mp nodup).1)]
      · simp only [loop, sema, semaView, Finset.mem_insert, mem_woken inv, ← perm.mem_iff,
          mem_cons, not_or]
        by_cases h : t = u
        · simp [h, asleep, (nodup_cons.mp nodup).1]
        · simp [h]
    rw [view]
    refine .wake _ u ?_
    simp only [semaView, mem_woken inv]
    exact fun off => off.2 queued

/-- The running thread has left the loop, if it was in it, with a unit of `s`. -/
theorem semaView_take (inv : Scheduled k) (inv' : Scheduled k')
    (hr : Recoded k k' code) (out : code.head? ≠ some (.semaDown s true))
    (unit : (k.sema s).value ≠ 0)
    (sema : k'.sema s = { k.sema s with value := (k.sema s).value - 1 }) :
    Counting.Move (2 ^ 32) (k.semaView s) [.down] (k'.semaView s) := by
  have view : k'.semaView s = { k.semaView s with
      value := (k.semaView s).value - 1
      woken := (k.semaView s).woken.erase k.current } := by
    refine semaView_eq inv' (sema ▸ rfl) (sema ▸ rfl) fun t => ?_
    rw [inLoop_of_recoded inv hr, sema]
    simp only [semaView, Finset.mem_erase, mem_woken inv]
    by_cases h : t = k.current <;> simp [h, out]
  rw [view]
  exact .take _ k.current (Nat.pos_of_ne_zero unit)

/-- The moves of `sema_down`: the thread takes a unit or goes to sleep. -/
theorem semaView_down {r : Bool} (inv : Scheduled k) (inv' : Scheduled k')
    (loop : LoopOnTop (k.thread k.current).stack) (old : k.Next (.semaDown s r) rest)
    (h : (k.setStack k.current rest).semaDown s = some k') : Counting.Move (2 ^ 32) (k.semaView s)
    (if (k.sema s).value ≠ 0 then [.down] else []) (k'.semaView s) := by
  simp only [semaDown] at h
  split_ifs at h with empty
  · have empty : (k.sema s).value = 0 := empty
    have hr : Recoded k k' (.semaDown s true :: rest) :=
      .of_schedule h (by simp) (by simp +contextual)
    have sema := congrFun (sema_of_fixed (schedule_fixed h)) s
    have waiters : ∀ t, t ∈ (k'.sema s).waiters ↔ t = k.current ∨ t ∈ (k.sema s).waiters := by
      intro t; rw [sema]; simp
    have view : k'.semaView s = { k.semaView s with
        waiting := insert k.current (k.semaView s).waiting
        woken := (k.semaView s).woken.erase k.current } := by
      refine semaView_eq inv' (by rw [sema]; simp [semaView]) ?_ fun t => ?_
      · ext t; simp [waiters, semaView]
      · rw [inLoop_of_recoded inv hr, waiters]
        simp only [semaView, Finset.mem_erase, mem_woken inv]
        by_cases hp : t = k.current <;> simp [hp]
    rw [view, if_neg (by simp [empty])]
    exact .sleep _ k.current empty
  · have unit : (k.sema s).value ≠ 0 := empty
    rw [if_pos unit]
    have under := (old ▸ loop).below s
    have hr : Recoded k k' (afterDown s ++ rest) := by
      cases h
      exact ⟨by simp, by simp +contextual⟩
    refine semaView_take inv inv' hr ?_ unit ?_
    · cases s <;> simp [afterDown, under]
    · cases h; simp

theorem semaTryDown_sema (k : Kernel) (s : SemaPtr) : (k.semaTryDown s).sema s =
    if (k.sema s).value > 0 then { k.sema s with value := (k.sema s).value - 1 }
    else k.sema s := by
  simp only [semaTryDown]
  split <;> simp

theorem semaView_tryDown (inv : Scheduled k) (inv' : Scheduled k')
    (hr : Recoded k k' code) (out : code.head? ≠ some (.semaDown s true))
    (was : ¬ k.inLoop s k.current)
    (sema : k'.sema s = if (k.sema s).value > 0
      then { k.sema s with value := (k.sema s).value - 1 } else k.sema s) :
    Counting.Move (2 ^ 32) (k.semaView s) (if (k.sema s).value ≠ 0 then [.down] else [])
      (k'.semaView s) := by
  by_cases unit : (k.sema s).value = 0
  · rw [if_neg (by simp [unit])] at sema ⊢
    have eq : k'.semaView s = k.semaView s := by
      refine semaView_same inv inv' sema fun t => ?_
      rw [inLoop_of_recoded inv hr]
      split_ifs with h
      · exact iff_of_false out (h ▸ was)
      · rfl
    rw [eq]
    exact .stay _
  · rw [if_pos (Nat.pos_of_ne_zero unit)] at sema
    rw [if_pos unit]
    exact semaView_take inv inv' hr out unit sema

end

/-- What an event is for semaphore `s`. `cond_wait` initialises its own. -/
def semaEvents (s : SemaPtr) (k : Kernel) : Event → List Counting.Event
  | .exec =>
    match (k.thread k.current).stack with
    | .semaDown s' _ :: _ | .semaTryDown s' :: _ =>
      if s' = s then if (k.sema s).value ≠ 0 then [.down] else [] else []
    | .semaUp s' :: _ => if s' = s then [.up] else []
    | .condWait .. :: _ => if s = .ofWaiter k.current then [.init 0] else []
    | _ => []
  | .interrupt (.semaTryDown n) =>
    if s = .named n then if (k.sema s).value ≠ 0 then [.down] else [] else []
  | .interrupt (.semaUp n) => if s = .named n then [.up] else []
  | _ => []

section
variable {k k' : Kernel} {s : SemaPtr}

theorem semaEvents_apart (old : k.Next i rest)
    (ne : i.reaches s k.current = false) : k.semaEvents s .exec = [] := by
  unfold semaEvents
  rw [old]
  cases i <;> simp_all

theorem semaView_exec (inv : Scheduled k) (inv' : Scheduled k')
    (loop : LoopOnTop (k.thread k.current).stack) (h : k.exec = some k') :
    Counting.Move (2 ^ 32) (k.semaView s) (k.semaEvents s .exec) (k'.semaView s) := by
  obtain ⟨i, rest, old, h⟩ := exec_eq h
  by_cases ne : i.reaches s k.current = false
  · rw [semaEvents_apart old ne, semaView_apart inv inv' loop old ne h]
    exact .stay _
  · obtain ⟨new, he, hr⟩ := inv.emits h
    have under := (old ▸ loop).below s
    cases i with
    | semaDown s' r =>
      obtain rfl : s' = s := by simpa using ne
      have events : k.semaEvents s' .exec = if (k.sema s').value ≠ 0 then [.down] else [] := by
        simp [semaEvents, old]
      rw [events]
      exact semaView_down inv inv' loop old h
    | semaTryDown s' =>
      obtain rfl : s' = s := by simpa using ne
      have events : k.semaEvents s' .exec = if (k.sema s').value ≠ 0 then [.down] else [] := by
        simp [semaEvents, old]
      rw [events]
      refine semaView_tryDown inv inv' hr ((old ▸ loop).stays_out he (by simp)) ?_ ?_
      · simp [inLoop, old]
      · rw [← some.inj h, semaTryDown_sema]; rfl
    | semaUp s' =>
      obtain rfl : s' = s := by simpa using ne
      have events : k.semaEvents s' .exec = [.up] := by simp [semaEvents, old]
      rw [events]
      obtain ⟨k1, up, rfl⟩ := map_eq_some_iff.mp h
      have upped := semaUp_upped up
      exact semaView_up inv inv' (inLoop_same inv loop old he hr (by simp)) upped
    | condWait c l =>
      obtain rfl : s = .ofWaiter k.current := by simpa using ne
      have events : k.semaEvents (.ofWaiter k.current) .exec = [.init 0] := by
        simp [semaEvents, old]
      rw [events]
      -- The semaphore is on the stack of the running thread, and nobody is in its loop.
      have nobody : ∀ t, ¬ k.inLoop (.ofWaiter k.current) t := by
        intro t top
        have own := inv.tidy.ownWaiter t _ _ (mem_of_mem_head? top)
        rw [← own, inLoop, old] at top
        cases top
      simp only [execInstr] at h
      split_ifs at h
      have sema : k'.sema (.ofWaiter k.current) = ⟨0, []⟩ := by
        cases h; simp
      have view : k'.semaView (.ofWaiter k.current) =
          ⟨0, ∅, (k.semaView (.ofWaiter k.current)).woken⟩ := by
        refine semaView_eq inv' (by rw [sema]) (sema ▸ rfl) fun t => ?_
        rw [inLoop_same inv loop old he hr (by simp)]
        simp only [semaView, mem_woken inv, nobody, false_and]
      rw [view]
      exact .init _ 0 (by decide)
    | _ => exact absurd rfl ne

theorem not_inLoop_of_on (on : k.interruptsOn = true) : ¬ k.inLoop s k.current := by
  intro top
  unfold inLoop at top
  unfold interruptsOn at on
  generalize (k.thread k.current).stack = code at on top
  cases code <;> simp_all [Instr.interruptsOff]

theorem inLoop_interrupt {i : Interrupt} (inv : Scheduled k) (on : k.interruptsOn = true)
    (h : k.interrupt i = some k') (t : ThreadPtr) : k'.inLoop s t ↔ k.inLoop s t := by
  rcases interrupt_recoded h with stays | yields
  · rw [inLoop_of_recoded inv stays]
    split_ifs with hp
    · rw [hp]; rfl
    · rfl
  · rw [inLoop_of_recoded inv yields]
    split_ifs with hp
    · exact iff_of_false (by simp) (hp ▸ not_inLoop_of_on on)
    · rfl

theorem semaView_interrupt {i : Interrupt} (inv : Scheduled k) (inv' : Scheduled k')
    (on : k.interruptsOn = true) (h : k.interrupt i = some k') :
    Counting.Move (2 ^ 32) (k.semaView s) (k.semaEvents s (.interrupt i)) (k'.semaView s) := by
  have loop : ∀ t, k'.inLoop s t ↔ k.inLoop s t := inLoop_interrupt inv on h
  have stay : k'.sema s = k.sema s →
      Counting.Move (2 ^ 32) (k.semaView s) [] (k'.semaView s) :=
    fun sema => semaView_same inv inv' sema loop ▸ .stay _
  cases i with
  | timer =>
    refine stay ?_
    obtain ⟨k1, yield, ticked, yields | rfl⟩ := timer_eq h
    · rw [sema_of_fixed (threadYield_fixed yields), sema_of_fixed (timerInterrupt_fixed ticked)]
    · rw [sema_of_fixed (timerInterrupt_fixed ticked)]
  | semaTryDown n =>
    by_cases same : s = .named n
    · subst same
      have events : k.semaEvents (.named n) (.interrupt (.semaTryDown n)) =
          if (k.sema (.named n)).value ≠ 0 then [.down] else [] := by simp [semaEvents]
      rw [events]
      have hr : Recoded k k' (k.thread k.current).stack := by
        obtain ⟨value, eq⟩ := semaTryDown_named k n
        rw [← some.inj h, eq]
        exact ⟨rfl, fun _ _ => .inl rfl⟩
      refine semaView_tryDown inv inv' hr (not_inLoop_of_on on) (not_inLoop_of_on on) ?_
      rw [← some.inj h, semaTryDown_sema]
    · simp only [semaEvents, if_neg same]
      refine stay ?_
      obtain ⟨v, fixed⟩ := semaTryDown_fixed k (.named n)
      rw [← some.inj h, sema_of_fixed fixed, setSema_other (Ne.symm same)]
  | semaUp n =>
    by_cases same : s = .named n
    · subst same
      simp only [semaEvents, if_true]
      exact semaView_up inv inv' loop (semaUp_upped h)
    · simp only [semaEvents, if_neg same]
      refine stay ?_
      obtain ⟨waiters, fixed⟩ := semaUp_fixed h
      rw [sema_of_fixed fixed, setSema_other (Ne.symm same)]
  | threadUnblock t =>
    refine stay ?_
    simp only [interrupt] at h
    split_ifs at h
    rw [sema_of_fixed (threadUnblock_fixed h)]

/-- Every step of the kernel is a move of every semaphore. -/
theorem semaView_step {e : Event} (inv : Scheduled k)
    (loop : LoopOnTop (k.thread k.current).stack) (h : k.step e = some k') :
    Counting.Move (2 ^ 32) (k.semaView s) (k.semaEvents s e) (k'.semaView s) := by
  have inv' := inv.step h
  cases e with
  | call c =>
    simp only [Kernel.step] at h
    split_ifs at h with free
    have empty := stack_eq_nil free
    have code : c.code.head? ≠ some (.semaDown s true) := by
      cases c <;> simp [Call.code]; split <;> simp
    have eq : k'.semaView s = k.semaView s := by
      refine semaView_same inv inv' (by cases h; rfl) fun t => ?_
      cases h
      by_cases hp : t = k.current <;> simp [inLoop, hp, empty, code]
    rw [eq]
    exact .stay _
  | exec => exact semaView_exec inv inv' loop h
  | interrupt i =>
    simp only [Kernel.step] at h
    split_ifs at h with on
    exact semaView_interrupt inv inv' on h

end

theorem loopOnTop_boot (mlfqs : Bool) (value : Nat → Nat) (t : ThreadPtr) :
    LoopOnTop ((boot mlfqs value).thread t).stack := by
  refine boot_cases mlfqs value (P := fun _ th => LoopOnTop th.stack) ?_ ?_ ?_ t <;> simp
    [LoopOnTop]

theorem counted_boot (mlfqs : Bool) (value : Nat → Nat) (s : SemaPtr) :
    Counting.Counted (2 ^ 32) (Counting.tally ((boot mlfqs value).sema s).value [])
      ((boot mlfqs value).semaView s) := by
  have hs : ((boot mlfqs value).sema s).value < 2 ^ 32 := by
    unfold boot
    dsimp only
    split <;> simp [unsigned, Nat.mod_lt]
  refine ⟨by simp [Counting.tally], ?_, ?_⟩
  · exact (Nat.mod_eq_of_lt hs).symm
  · simp [semaView, boot_waiters]

/-- What has been put into semaphore `s` and taken out of it since it was last
initialised, after a run. -/
def semaTally (mlfqs : Bool) (value : Nat → Nat) (history : List Event) (s : SemaPtr) :
    Counting.Tally :=
  Counting.tally ((boot mlfqs value).sema s).value
    (Machine.log step (semaEvents s) (boot mlfqs value) history)

/-- The value of a semaphore is its first value and the ups less the downs, as an
`unsigned int` keeps it. While a thread sleeps on it, every unit has a woken thread
that is still to look at the value. -/
theorem semaphore_counts {mlfqs : Bool} {value : Nat → Nat} {history : List Event} {k : Kernel}
    (run : Machine.Run step Machine.Free (boot mlfqs value) history k) (s : SemaPtr) :
    let count := semaTally mlfqs value history s
    count.downs ≤ count.start + count.ups ∧
    (k.sema s).value = unsigned (count.start + count.ups - count.downs) ∧
    ((k.sema s).waiters ≠ [] → (k.sema s).value ≤ (k.woken s).card) := by
  intro count
  have hr : Scheduled k ∧ (∀ t, LoopOnTop (k.thread t).stack) ∧
      Counting.Counted (2 ^ 32) count (k.semaView s) := by
    unfold count semaTally
    refine run.log_invariant (I := fun seen k => Scheduled k ∧ (∀ t, LoopOnTop (k.thread t).stack) ∧
      Counting.Counted (2 ^ 32) (Counting.tally ((boot mlfqs value).sema s).value seen)
        (k.semaView s)) ?_ ?_
    · exact ⟨scheduled_boot mlfqs value, loopOnTop_boot mlfqs value, counted_boot mlfqs value s⟩
    · rintro seen k e k' ⟨inv, loop, hc⟩ _ h
      exact ⟨inv.step h, LoopOnTop.step inv loop h,
        (semaView_step inv (loop _) h).counted hc⟩
  obtain ⟨_, _, hc⟩ := hr
  refine ⟨hc.enough, hc.value, fun some => hc.covered ?_⟩
  simpa [semaView, toFinset_nonempty_iff] using some

/-- Two threads sleep on a semaphore and one is woken. -/
def twoSleepers : List Event :=
  replicate 7 .exec ++ .call (.threadCreate 31 true) :: replicate 17 .exec ++
  .call (.threadCreate 31 true) :: replicate 17 .exec ++
  .call .threadYield :: replicate 2 .exec ++ .call (.semaDown 1) :: replicate 2 .exec ++
  .call (.semaDown 1) :: replicate 2 .exec ++ [.call (.semaUp 1), .exec]

theorem semaphore_counts_twoSleepers :
    ∃ k, Machine.runs step Machine.Free (boot false fun _ => 0) twoSleepers = some k ∧
      (k.sema (.named 1)).value = 1 ∧ (k.sema (.named 1)).waiters = [3] ∧
      1 ≤ (k.woken (.named 1)).card := by
  have state : (Machine.runs step Machine.Free (boot false fun _ => 0) twoSleepers).map
      (fun k => k.sema (.named 1)) = some ⟨1, [3]⟩ := by decide +kernel
  obtain ⟨k, hr, seen⟩ := map_eq_some_iff.mp state
  obtain ⟨value, waiters⟩ := Semaphore.mk.inj seen
  have covered := (semaphore_counts (Machine.runs_run hr) (.named 1)).2.2 (by simp [waiters])
  exact ⟨k, hr, value, waiters, value.symm.trans_le covered⟩

/-- One `sema_up` on a semaphore that holds all an `unsigned int` can. -/
def upPastMax : List Event := replicate 7 .exec ++ [.call (.semaUp 1), .exec]

theorem semaphore_wraps :
    ∃ k, Machine.runs step Machine.Free (boot false fun _ => 2 ^ 32 - 1) upPastMax = some k ∧
      (k.sema (.named 1)).value = 0 ∧
      semaTally false (fun _ => 2 ^ 32 - 1) upPastMax.reverse (.named 1) = ⟨2 ^ 32 - 1, 1, 0⟩ := by
  have state : (Machine.runs step Machine.Free (boot false fun _ => 2 ^ 32 - 1) upPastMax).map
      (fun k => (k.sema (.named 1)).value) = some 0 := by decide +kernel
  obtain ⟨k, hr, value⟩ := map_eq_some_iff.mp state
  exact ⟨k, hr, value, by decide +kernel⟩

end Kernel

end Pintos.Threads
