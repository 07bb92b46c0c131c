import Pintos.Threads.Code

/-!
# Strict priority

The thread in its own code has a priority no thread in `ready_list` exceeds, as long
as interrupts do not make a thread of higher priority ready: they do not ask for a
yield on return. Inside an operation the order may be broken, but then the running
thread still has an instruction to run that looks at the front of `ready_list` or
gives up the CPU.
-/

namespace Pintos.Threads

open Ordered List Option

/-- Instructions after which the running thread has compared itself with the front of
`ready_list`, or has left the CPU. -/
@[simp] def Instr.covers : Instr → Bool
  | .semaUp _ | .checkFront | .threadYield | .idleStart _ | .idleLoop => true
  | _ => false

/-- Instructions that may lower the priority of the running thread and do not look at
`ready_list` themselves. -/
@[simp] def Instr.lowers : Instr → Bool
  | .updatePriority | .maxDonation .. => true
  | _ => false

/-- Whatever lowers the priority is followed by a look at `ready_list`. -/
def Covered : List Instr → Prop
  | [] => True
  | i :: rest => (i.lowers = true → ∃ j ∈ rest, j.covers = true) ∧ Covered rest

namespace Covered

variable {new : List Instr}

theorem append {rest : List Instr} (hi : Covered new) (hb : Covered rest) :
    Covered (new ++ rest) := by
  induction new with
  | nil => exact hb
  | cons i new ih =>
    refine ⟨fun lowers => ?_, ih hi.2⟩
    obtain ⟨j, hj, covers⟩ := hi.1 lowers
    exact ⟨j, mem_append_left _ hj, covers⟩

/-- The running thread goes on with code of the same need. -/
theorem replace {rest : List Instr} (cover : ∃ j ∈ rest, j.covers = true)
    (hb : Covered rest) : Covered (new ++ rest) := by
  induction new with
  | nil => exact hb
  | cons i new ih =>
    obtain ⟨j, hj, covers⟩ := cover
    exact ⟨fun _ => ⟨j, mem_append_right _ hj, covers⟩, ih⟩

theorem flows {code code' : List Instr} (covered : Covered code) (flow : Flows code code') :
    Covered code' := by
  cases flow with
  | exec rest he =>
    obtain ⟨need, hb⟩ := covered
    cases he with
    | updatePriority e m | maxNext d m e m' => exact replace (need rfl) hb
    | downTakes s r => exact append (by cases s <;> simp [Covered, afterDown]) hb
    | tryTakes s => exact append (by cases s <;> simp [Covered, afterTryDown]) hb
    | _ => exact append (by simp [Covered]) hb
  | call c => cases c <;> simp [Covered, Call.code]; split <;> simp [Covered]
  | stay => exact covered
  | preempt => exact ⟨by simp, covered⟩

end Covered

/-- A thread that has not run yet has only to start. -/
def Unstarted (code : List Instr) : Prop :=
  code.Pairwise fun i j => j = .resume .created → ∃ w, i = .resume w

variable {i : Instr} {t : ThreadPtr} {p : Int}

theorem Unstarted.emits {new : List Instr} (he : Emits i new) :
    (∀ a ∈ new, a ≠ .resume .created) ∧ ∀ w, i = .resume w → new = [] := by
  cases he with
  | downTakes s r => cases s <;> simp [afterDown]
  | tryTakes s => cases s <;> simp [afterTryDown]
  | _ => simp

theorem Unstarted.flows {code code' : List Instr} (unstarted : Unstarted code)
    (flow : Flows code code') : Unstarted code' := by
  cases flow with
  | exec rest he =>
    obtain ⟨started, none⟩ := Unstarted.emits he
    refine pairwise_replace unstarted ?_ ?_
    · refine Pairwise.imp_of_mem (R := fun _ _ => True) ?_ (pairwise_of_forall fun _ _ => trivial)
      exact fun _ hb _ eq => absurd eq (started _ hb)
    · grind
  | call c => cases c <;> simp [Unstarted, Call.code]; split <;> simp
  | stay => exact unstarted
  | preempt => exact pairwise_cons.mpr ⟨by simp, unstarted⟩

/-- A creation after a step was there before it, or the step is its `init_thread`. -/
theorem Emits.creates {new : List Instr} {st : Creation} (he : Emits i new)
    (mem : .create st t p ∈ new) : (∃ st', i = .create st' t p) ∨ i = .initThread p := by
  cases he with
  | downTakes s r => cases s <;> simp [afterDown] at mem
  | tryTakes s => cases s <;> simp [afterTryDown] at mem
  | _ => simp_all

namespace Kernel

/-- No thread in `ready_list` has a higher priority than the running one. -/
def Strict (k : Kernel) : Prop :=
  ∀ r ∈ k.readyList, (k.thread r).priority ≤ (k.thread k.current).priority

/-- Threads of higher priority are ready, but the running thread will notice: it has an
instruction that covers, or it has just created the thread that is ahead of it. -/
def Order (k : Kernel) : Prop :=
  k.Strict ∨ (∃ i ∈ (k.thread k.current).stack, i.covers = true) ∨
    ∃ p, .createCheck p ∈ (k.thread k.current).stack ∧
      ∀ r ∈ k.readyList, (k.thread r).priority ≤ max (k.thread k.current).priority p

section
variable {k k' : Kernel}

section
variable (sorted : Sorted k.threadPriorityGreater k.readyList)
include sorted

/-- Whoever gets the CPU was at the front of `ready_list`. -/
theorem strict_of_schedule (h : k.schedule = some k') : k'.Strict := by
  obtain ⟨next, rest, eq, rfl⟩ := schedule_eq h
  rcases next_mem eq with ready | ⟨_, _, none⟩
  · intro r hr
    rw [ready] at sorted
    have := (pairwise_cons.mp sorted).1 r hr
    simpa [switchTo, threadPriorityGreater] using this
  · intro r hr
    simp [switchTo, none] at hr

theorem strict_of_threadYield (h : k.threadYield = some k') : k'.Strict := by
  simp only [threadYield] at h
  split_ifs at h
  · refine strict_of_schedule ?_ h
    exact sorted_congr (k := k) (by simp) sorted
  · refine strict_of_schedule ?_ h
    refine sorted_congr (k := k) (by simp) ?_
    simpa using insertOrdered_sorted k.strictWeak_priority k.current sorted

theorem strict_of_front (low : k.frontIsGreater = false) : k.Strict := by
  unfold frontIsGreater at low
  intro r hr
  split at low
  · rename_i empty; simp [empty] at hr
  · rename_i front rest ready
    rw [ready] at hr sorted
    have first : (k.thread front).priority ≤ (k.thread k.current).priority := by simpa using low
    rcases mem_cons.mp hr with rfl | hr
    · exact first
    · have := (pairwise_cons.mp sorted).1 r hr
      exact (Int.not_lt.mp this).trans first

theorem order_of_checkFront : k.checkFront.Order := by
  unfold checkFront
  split
  · exact .inr (.inl ⟨.threadYield, by simp, rfl⟩)
  · rename_i low
    exact .inl (strict_of_front sorted (by simpa using low))

end

/-- Priorities after a donation: a holder may rise, up to the donor. -/
theorem donateLoop_priority (depth : Nat) (t r : ThreadPtr) :
    (k.thread r).priority ≤ ((donateLoop depth k t).1.thread r).priority ∧
    ((donateLoop depth k t).1.thread r).priority ≤
      max (k.thread r).priority (k.thread t).priority := by
  induction depth generalizing k t with
  | zero => exact ⟨Int.le_refl _, le_max_left _ _⟩
  | succ depth ih =>
    unfold donateLoop
    split
    · exact ⟨Int.le_refl _, le_max_left _ _⟩
    · rename_i k1 h step
      obtain ⟨_, _, _, lower, rfl⟩ := donateStep_eq step
      obtain ⟨up, hb⟩ := ih (k := k.raise h (k.thread t).priority) h
      simp only [raise_priority] at up hb
      by_cases eq : r = h
      · subst eq; simp_all; omega
      · simp_all

theorem donateLoop_others (depth : Nat) (t : ThreadPtr) {r : ThreadPtr}
    (free : ∀ l, k.holder l ≠ some r) :
    ((donateLoop depth k t).1.thread r).priority = (k.thread r).priority := by
  induction depth generalizing k t with
  | zero => rfl
  | succ depth ih =>
    unfold donateLoop
    split
    · rfl
    · rename_i k1 h step
      obtain ⟨l, _, held, _, rfl⟩ := donateStep_eq step
      have ne : r ≠ h := by rintro rfl; exact free l held
      rw [ih (k := k.raise h _) h (by simpa using free)]
      simp [ne]

/-- Nobody passes the running thread, and it keeps the instructions that would notice. -/
theorem Order.keep (order : k.Order) (current : k'.current = k.current)
    (up : (k.thread k.current).priority ≤ (k'.thread k.current).priority)
    (ready : ∀ r ∈ k'.readyList, r ∈ k.readyList ∧
      (k'.thread r).priority ≤ max (k.thread r).priority (k'.thread k.current).priority ∨
      (k'.thread r).priority ≤ (k'.thread k.current).priority)
    (code : ∀ j ∈ (k.thread k.current).stack, (j.covers = true ∨ ∃ p, j = .createCheck p) →
      j ∈ (k'.thread k.current).stack) : k'.Order := by
  unfold Order Strict
  rw [current]
  rcases order with strict | ⟨j, hj, covers⟩ | ⟨p, hp, hb⟩
  · left
    intro r hr
    rcases ready r hr with ⟨was, le⟩ | le
    · have := strict r was; omega
    · exact le
  · exact .inr (.inl ⟨j, code j hj (.inl covers), covers⟩)
  · right; right
    refine ⟨p, code _ hp (.inr ⟨p, rfl⟩), fun r hr => ?_⟩
    rcases ready r hr with ⟨was, le⟩ | le
    · have := hb r was; omega
    · omega

/-- The instruction on top neither covers nor checks a new thread. -/
theorem Order.pop {rest : List Instr} (new : List Instr) (order : k.Order)
    (old : k.Next i rest) (self : (k'.thread k.current).stack = new ++ rest)
    (hp : i.covers = false ∧ ∀ p, i ≠ .createCheck p) (current : k'.current = k.current)
    (up : (k.thread k.current).priority ≤ (k'.thread k.current).priority)
    (ready : ∀ r ∈ k'.readyList, r ∈ k.readyList ∧
        (k'.thread r).priority ≤ max (k.thread r).priority (k'.thread k.current).priority ∨
      (k'.thread r).priority ≤ (k'.thread k.current).priority)
    : k'.Order := by
  refine order.keep current up ready ?_
  intro j hj checks
  rw [old] at hj
  rw [self]
  rcases mem_cons.mp hj with rfl | hj
  · grind
  · exact mem_append_right _ hj

theorem ranking_eq (eq : k'.ranking = k.ranking) : k'.readyList = k.readyList ∧
    k'.current = k.current ∧ ∀ t, (k'.thread t).priority = (k.thread t).priority := by
  simp only [ranking, Prod.mk.injEq] at eq
  exact ⟨eq.1, eq.2.1, congrFun eq.2.2⟩

theorem Order.pop_ranking {new rest : List Instr} (order : k.Order)
    (old : k.Next i rest) (self : (k'.thread k.current).stack = new ++ rest)
    (hp : i.covers = false ∧ ∀ p, i ≠ .createCheck p) (eq : k'.ranking = k.ranking) : k'.Order :=
    by
  obtain ⟨ready, current, priority⟩ := ranking_eq eq
  refine order.pop _ old self hp current (le_of_eq (priority _).symm) fun r hr => .inl ?_
  exact ⟨ready ▸ hr, by rw [priority]; exact le_max_left _ _⟩

theorem Order.createCheck {rest : List Instr} (order : k.Order)
    (old : k.Next (.createCheck p) rest) (h : k.Does (.createCheck p) rest k') : k'.Order := by
  simp only [Does, execInstr, some.injEq] at h
  subst h
  split
  · exact .inr (.inl ⟨.threadYield, by simp, rfl⟩)
  · rename_i low
    have low : p ≤ (k.thread k.current).priority := by simpa using low
    rcases order with strict | ⟨j, hj, covers⟩ | ⟨q, hq, hb⟩
    · left; intro r hr; simpa using strict r hr
    · refine .inr (.inl ⟨j, ?_, covers⟩)
      rw [old] at hj
      rcases mem_cons.mp hj with rfl | hj
      · cases covers
      · simpa using hj
    · rw [old] at hq
      rcases mem_cons.mp hq with eq | hq
      · cases eq
        left; intro r hr
        have := hb r hr
        simpa [low] using this
      · right; right
        exact ⟨q, by simpa using hq, fun r hr => by simpa using hb r hr⟩

end

/-- A thread under creation has the priority it was asked for: it holds no lock, so
nobody can have donated to it. -/
@[grind cases] structure Fresh (k : Kernel) : Prop where
  holders : ∀ l h, k.holder l = some h → h < k.created ∧ .resume .created ∉ (k.thread h).stack
  asked : ∀ u st t p, .create st t p ∈ (k.thread u).stack → (k.thread t).priority = p

/-- The thread that a bare `thread_unblock` is about to wake. -/
def unblocks (k : Kernel) : List ThreadPtr :=
  match (k.thread k.current).stack with
  | .threadUnblock t :: _ => [t]
  | _ => []

/-- Whoever becomes ready without a check against the running thread has no higher
priority. Nobody has to check for the idle thread, and at the end of a time slice
the timer makes the running thread yield. -/
def Prompt (k : Kernel) : Event → Prop
  | .exec => ∀ t ∈ k.unblocks, (k.thread t).priority ≤ (k.thread k.current).priority
  | .interrupt .timer => k.current = bootIdle ∨ timeSlice ≤ k.threadTicks + 1 ∨
      ∀ t ∈ k.sleepList.takeWhile (fun t => decide ((k.thread t).wakeTick ≤ k.ticks + 1)),
        (k.thread t).priority ≤ (k.thread k.current).priority
  | .interrupt (.semaUp n) => k.current = bootIdle ∨
      ∀ t ∈ (k.sema (.named n)).waiters, (k.thread t).priority ≤ (k.thread k.current).priority
  | .interrupt (.threadUnblock t) => k.current = bootIdle ∨
      (k.thread t).priority ≤ (k.thread k.current).priority
  | .interrupt (.semaTryDown _) | .call _ => True

section
variable {k k' k1 : Kernel} {rest : List Instr}

instance : DecidablePred k.Prompt
  | .exec => inferInstanceAs (Decidable (∀ t ∈ _, _))
  | .call _ => inferInstanceAs (Decidable True)
  | .interrupt .timer => inferInstanceAs (Decidable (_ ∨ _ ∨ ∀ t ∈ _, _))
  | .interrupt (.semaUp _) => inferInstanceAs (Decidable (_ ∨ ∀ t ∈ _, _))
  | .interrupt (.threadUnblock _) => inferInstanceAs (Decidable (_ ∨ _ ≤ _))
  | .interrupt (.semaTryDown _) => inferInstanceAs (Decidable True)

theorem threadUnblock_ready (h : k.threadUnblock t = some k') :
    (∀ r, r ∈ k'.readyList ↔ r = t ∨ r ∈ k.readyList) ∧
    (∀ r, (k'.thread r).priority = (k.thread r).priority) ∧ k'.current = k.current := by
  rw [(threadUnblock_eq h).2]
  simp

theorem Order.threadUnblock (order : k.Order) (old : k.Next (.threadUnblock t) rest)
    (prompt : k.Prompt .exec) (h : (k.setStack k.current rest).threadUnblock t = some k') : k'.Order
    := by
  obtain ⟨ready, priority, current⟩ := threadUnblock_ready h
  have priority : ∀ r, (k'.thread r).priority = (k.thread r).priority := by simpa using priority
  have low : (k.thread t).priority ≤ (k.thread k.current).priority :=
    prompt t (by simp [unblocks, old])
  have self : (k'.thread k.current).stack = rest := by rw [threadUnblock_stack h]; simp
  refine order.pop [] old self ⟨rfl, by simp⟩ current (le_of_eq (priority _).symm) ?_
  intro r hr
  rw [priority, priority]
  rcases (ready r).mp hr with rfl | hr
  · exact .inr low
  · exact .inl ⟨by simpa using hr, le_max_left _ _⟩

/-- The new thread is ready, and the check of its priority comes next. -/
theorem Order.createUnblock (order : k.Order)
    (old : k.Next (.create .unblock t p) rest) (asked : (k.thread t).priority = p)
    (h : (k.setStack k.current rest).threadUnblock t = some k1) : (k1.push [.createCheck p]).Order
    := by
  obtain ⟨ready, priority, current⟩ := threadUnblock_ready h
  have priority : ∀ r, (k1.thread r).priority = (k.thread r).priority := by simpa using priority
  have current : k1.current = k.current := current
  have ready : ∀ r, r ∈ k1.readyList ↔ r = t ∨ r ∈ k.readyList := by simpa using ready
  have self : (k1.thread k.current).stack = rest := by rw [threadUnblock_stack h]; simp
  rcases order with strict | ⟨j, hj, covers⟩ | ⟨q, hq, hb⟩
  · refine .inr (.inr ⟨p, by simp, fun r hr => ?_⟩)
    simp only [push, setStack, modify_readyList, modify_current, current] at hr ⊢
    simp only [priority, modify_priority_keep, implies_true]
    rcases (ready r).mp hr with rfl | hr
    · rw [asked]; exact le_max_right _ _
    · exact (strict r hr).trans (le_max_left _ _)
  · refine .inr (.inl ⟨j, ?_, covers⟩)
    rw [old] at hj
    rcases mem_cons.mp hj with rfl | hj
    · cases covers
    · simp [current, self, hj]
  · rw [old] at hq
    have hq : .createCheck q ∈ rest := by simpa using hq
    have mem : ∀ c, c = p ∨ c = q →
        .createCheck c ∈
          ((k1.push [.createCheck p]).thread (k1.push [.createCheck p]).current).stack := by
      rintro c (rfl | rfl) <;> simp [current, self, hq]
    refine .inr (.inr ⟨max p q, mem _ (by omega), fun r hr => ?_⟩)
    simp only [push, setStack, modify_readyList, modify_current, current] at hr ⊢
    simp only [priority, modify_priority_keep, implies_true]
    rcases (ready r).mp hr with rfl | hr
    · rw [asked]; omega
    · have := hb r hr; omega

theorem Order.donatePriority (order : k.Order) (inv : Scheduled k)
    (old : k.Next .donatePriority rest)
    (h : (k.setStack k.current rest).donatePriority k.current = k') : k'.Order := by
  obtain ⟨_, ranked⟩ := (inv.done old rfl).donateLoop donationDepth k.current
  have stack := ranked.stack k.current
  have current := ranked.current
  have ready : ∀ r, _ := fun r => ranked.readyList.mem_iff (a := r)
  have priority : ∀ r, (k.thread r).priority ≤ (k'.thread r).priority ∧
      (k'.thread r).priority ≤ max (k.thread r).priority (k.thread k.current).priority := by
    intro r
    rw [← h, Kernel.donatePriority]
    simpa using donateLoop_priority (k := k.setStack k.current rest) donationDepth k.current r
  subst h
  refine order.pop [] old (stack.trans (by simp)) ⟨rfl, by simp⟩ current
    (priority k.current).1 fun r hr => .inl ⟨by simpa using (ready r).mp hr, ?_⟩
  have := priority r
  have := priority k.current
  omega

/-- An instruction that gives up the CPU, with `ready_list` as it was. -/
theorem strict_of_leaving (inv : Scheduled k) (h : k1.schedule = some k')
    (ready : k1.readyList = k.readyList)
    (priority : ∀ t, (k1.thread t).priority = (k.thread t).priority) : k'.Strict := by
  refine strict_of_schedule ?_ h
  rw [ready]
  exact sorted_congr (fun t _ => priority t) inv.lists.readySorted

theorem Order.exec (order : k.Order) (inv : Scheduled k) (hf : Fresh k)
    (covered : Covered (k.thread k.current).stack) (prompt : k.Prompt .exec)
    (h : k.exec = some k') : k'.Order := by
  obtain ⟨i, rest, old, h⟩ := exec_eq h
  obtain ⟨new, he, recoded⟩ := inv.emits h
  have self := recoded.self
  have sorted : Sorted (k.setStack k.current rest).threadPriorityGreater
      (k.setStack k.current rest).readyList := (inv.lists.readySorted.imp (by simp))
  cases i with
  | checkFront => cases h; exact order_of_checkFront sorted
  | createCheck p => exact order.createCheck old h
  | idleStart s =>
    cases h
    exact .inr (.inl ⟨.idleLoop, by simp, rfl⟩)
  | semaUp s =>
    obtain ⟨k1, up, rfl⟩ := map_eq_some_iff.mp h
    exact .inr (.inl ⟨.checkFront, by simp, rfl⟩)
  | semaDown s r =>
    simp only [execInstr, semaDown] at h
    split_ifs at h
    · exact .inl (strict_of_leaving inv h (by simp) (by simp))
    · rw [← some.inj h] at self ⊢
      exact order.pop_ranking old self ⟨rfl, by simp⟩ (by simp [ranking])
  | threadYield => exact .inl (strict_of_threadYield sorted h)
  | threadBlock => exact .inl (strict_of_leaving inv h (by simp) (by simp))
  | threadSleep w => exact .inl (strict_of_leaving inv h (by simp) (by simp))
  | threadExit => exact .inl (strict_of_leaving inv h (by simp) (by simp))
  | idleLoop => exact .inl (strict_of_leaving inv h (by simp) (by simp))
  | threadUnblock t =>
    simp only [execInstr] at h
    split_ifs at h
    exact order.threadUnblock old prompt h
  | initThread p =>
    obtain ⟨hb, _⟩ := inv.born_initThread h
    have hf : k.current ≠ k.created := Nat.ne_of_lt (inv.tidy.born inv.up)
    have eq := hb.priority k.current hf
    refine order.pop _ old self ⟨rfl, by simp⟩ hb.current (le_of_eq eq.symm) fun r hr => ?_
    rw [hb.readyList] at hr
    have ne : r ≠ k.created := by grind
    exact .inl ⟨hr, by rw [hb.priority r ne]; exact le_max_left _ _⟩
  | create st t p =>
    cases st with
    | unblock =>
      obtain ⟨k1, woken, rfl⟩ := map_eq_some_iff.mp h
      exact order.createUnblock old
        (hf.asked k.current .unblock t p (by rw [old]; exact (.head _))) woken
    | _ =>
      refine order.pop_ranking old self ⟨rfl, by simp⟩ ((execInstr_ranking h rfl).trans ?_)
      simp [ranking]
  | maxDonation e m =>
    cases e with
    | none =>
      rw [old] at covered
      obtain ⟨j, hj, covers⟩ := covered.1 rfl
      cases h
      exact .inr (.inl ⟨j, by simpa using hj, covers⟩)
    | some d =>
      refine order.pop_ranking old self ⟨rfl, by simp⟩ ((execInstr_ranking h rfl).trans ?_)
      simp [ranking]
  | threadSetNice n =>
    cases h
    refine order_of_checkFront ?_
    have away : ∀ t ∈ k.readyList, t ≠ k.current := by
      rintro t ht rfl
      exact inv.lists.current_off.1 ht
    unfold mlfqsCalcPriority
    split
    · exact sorted_congr (k := k) (by simp) inv.lists.readySorted
    · refine sorted_congr (k := k) (fun t ht => ?_) inv.lists.readySorted
      simp [away t ht]
  | donatePriority => exact order.donatePriority inv old (some.inj h)
  | _ =>
    refine order.pop_ranking old self ⟨rfl, by simp⟩ ((execInstr_ranking h rfl).trans ?_)
    simp [ranking]

theorem Order.interrupt_stays (order : k.Order) (inv : Scheduled k)
    (current : k'.current = k.current)
    (stack : (k'.thread k.current).stack = (k.thread k.current).stack)
    (priority : ∀ t, (k'.thread t).priority = (k.thread t).priority)
    (woken : k.current = bootIdle ∨ ∀ r ∈ k'.readyList, r ∈ k.readyList ∨
      (k.thread r).priority ≤ (k.thread k.current).priority) : k'.Order := by
  rcases woken with hi | low
  · -- The idle thread is always on its way back to its loop.
    have last : ∃ i ∈ (k'.thread k'.current).stack, i.covers = true := by
      rw [current, stack, hi]
      rcases inv.tidy.idleLast with last | ⟨s, last⟩
      · exact ⟨_, mem_of_getLast? last, rfl⟩
      · exact ⟨_, mem_of_getLast? last, rfl⟩
    exact .inr (.inl last)
  · refine order.keep current (le_of_eq (priority _).symm) ?_ (fun j hj _ => stack ▸ hj)
    intro r hr
    rw [priority, priority]
    rcases low r hr with was | le
    · exact .inl ⟨was, le_max_left _ _⟩
    · exact .inr le

theorem wakeLoop_ready {now : Int} {sleepers : List ThreadPtr}
    (h : wakeLoop now sleepers k = some k') :
    (∀ r ∈ k'.readyList, r ∈ k.readyList ∨
      r ∈ sleepers.takeWhile fun t => decide ((k.thread t).wakeTick ≤ now)) ∧
    ∀ t, (k'.thread t).priority = (k.thread t).priority := by
  induction sleepers generalizing k with
  | nil => cases h; exact ⟨fun r hr => Or.inl hr, fun _ => rfl⟩
  | cons u others ih =>
    unfold wakeLoop at h
    split_ifs at h with late
    · cases h; exact ⟨fun r hr => Or.inl hr, fun _ => rfl⟩
    · obtain ⟨k1, woken, h⟩ := bind_eq_some_iff.mp h
      obtain ⟨ready, priority⟩ := ih h
      obtain ⟨ready1, priority1, _⟩ := threadUnblock_ready woken
      have ticks : ∀ t, (k1.thread t).wakeTick = (k.thread t).wakeTick := by
        intro t
        rw [(threadUnblock_eq woken).2, setStatus, modify_thread]
        split <;> simp_all
      refine ⟨fun r hr => ?_, fun t => (priority t).trans (priority1 t)⟩
      rw [takeWhile_cons_of_pos (by simpa using late)]
      rcases ready r hr with hr | hr
      · grind
      · refine Or.inr (mem_cons_of_mem _ ?_)
        simpa only [ticks] using hr

theorem timerInterrupt_ready {yield : Bool} (hp : k.mlfqs = false)
    (h : k.timerInterrupt = some (k', yield)) :
    (∀ r ∈ k'.readyList, r ∈ k.readyList ∨
      r ∈ k.sleepList.takeWhile fun t => decide ((k.thread t).wakeTick ≤ k.ticks + 1)) ∧
    (∀ t, (k'.thread t).priority = (k.thread t).priority) ∧
    yield = decide (timeSlice ≤ k.threadTicks + 1) := by
  obtain ⟨k1, woken, eq⟩ := map_eq_some_iff.mp h
  cases eq
  have tick : { k with ticks := k.ticks + 1 }.threadTick =
      { k with ticks := k.ticks + 1, currentTicks := k.currentTicks + 1,
               threadTicks := k.threadTicks + 1 } := by
    simp [threadTick, hp]
  rw [tick] at woken
  obtain ⟨ready, priority⟩ := wakeLoop_ready woken
  exact ⟨ready, priority, by rw [tick]⟩

theorem Order.interrupt {i : Interrupt} (order : k.Order) (inv : Scheduled k) (hp : k.mlfqs = false)
    (prompt : k.Prompt (.interrupt i)) (h : k.interrupt i = some k') : k'.Order := by
  cases i with
  | timer =>
    simp only [Kernel.interrupt] at h
    split at h
    · cases h
    · rename_i k1 yield ticked
      obtain ⟨ready, priority, slice⟩ := timerInterrupt_ready hp ticked
      obtain ⟨stack, current⟩ := timerInterrupt_stack ticked
      split_ifs at h with yields
      · exact .inl (strict_of_threadYield (inv.timerInterrupt ticked).lists.readySorted h)
      · cases h
        refine order.interrupt_stays inv current (stack _) priority ?_
        rcases prompt with hi | late | low
        · exact .inl hi
        · simp [slice, late] at yields
        · exact .inr fun r hr => (ready r hr).imp_right (low r)
  | semaTryDown n =>
    obtain ⟨value, eq⟩ := semaTryDown_named k n
    rw [← some.inj h, eq]
    exact order.interrupt_stays inv rfl rfl (fun _ => rfl) (.inr fun r hr => .inl hr)
  | semaUp n =>
    have stack := semaUp_stack h k.current
    have current := semaUp_current h
    simp only [Kernel.interrupt, Kernel.semaUp] at h
    split at h
    · cases h
      exact order.interrupt_stays inv rfl rfl (fun _ => rfl) (.inr fun r hr => .inl hr)
    · rename_i t others sorted
      obtain ⟨ready, priority, _⟩ := threadUnblock_ready h
      refine order.interrupt_stays inv current stack priority (prompt.imp_right fun low r hr => ?_)
      rcases (ready r).mp hr with rfl | hr
      · have first : r ∈ stableSort k.threadPriorityGreater (k.sema (.named n)).waiters := by
          rw [sorted]; exact (.head _)
        exact .inr (low r (mem_stableSort.mp first))
      · exact .inl hr
  | threadUnblock t =>
    simp only [Kernel.interrupt] at h
    split_ifs at h
    obtain ⟨ready, priority, current⟩ := threadUnblock_ready h
    refine order.interrupt_stays inv current (threadUnblock_stack h _) priority
      (prompt.imp_right fun low r hr => ?_)
    rcases (ready r).mp hr with rfl | hr
    · exact .inr low
    · exact .inl hr

/-! ### Threads under creation -/

theorem schedule_priority (h : k.schedule = some k') (t : ThreadPtr) :
    (k'.thread t).priority = (k.thread t).priority := by
  obtain ⟨next, rest, _, rfl⟩ := schedule_eq h
  simp [switchTo]

theorem threadYield_priority (h : k.threadYield = some k') (t : ThreadPtr) :
    (k'.thread t).priority = (k.thread t).priority := by
  simp only [threadYield] at h
  split_ifs at h <;> rw [schedule_priority h] <;> simp

theorem semaUp_priority {s : SemaPtr} (h : k.semaUp s = some k') (t : ThreadPtr) :
    (k'.thread t).priority = (k.thread t).priority := by
  simp only [semaUp] at h
  split at h
  · cases h; rfl
  · rw [(threadUnblock_ready h).2.1]; rfl

/-- Only the running thread and the holders of locks get a new priority. -/
theorem execInstr_priority (h : k.execInstr i = some k')
    (away : t ≠ k.current) (old : t ≠ k.created) (free : ∀ l, k.holder l ≠ some t) :
    (k'.thread t).priority = (k.thread t).priority := by
  cases i with
  | semaDown s r =>
    simp only [execInstr, semaDown] at h
    split_ifs at h
    · rw [schedule_priority h]; simp
    · cases h; simp
  | semaUp s =>
    obtain ⟨k1, up, rfl⟩ := map_eq_some_iff.mp h
    simpa using semaUp_priority up t
  | threadYield => exact threadYield_priority h t
  | threadBlock | threadSleep | threadExit | idleLoop => rw [schedule_priority h]; simp
  | threadUnblock u =>
    simp only [execInstr] at h
    split_ifs at h
    exact (threadUnblock_ready h).2.1 t
  | initThread p =>
    simp only [execInstr] at h
    split_ifs at h
    cases h
    simp [modify_thread, away, old]
  | create st u p =>
    cases st with
    | unblock =>
      obtain ⟨k1, woken, rfl⟩ := map_eq_some_iff.mp h
      simpa using (threadUnblock_ready woken).2.1 t
    | _ => exact (ranking_eq (execInstr_ranking h rfl)).2.2 t
  | maxDonation e m =>
    cases e with
    | none => cases h; simp [away]
    | some d => exact (ranking_eq (execInstr_ranking h rfl)).2.2 t
  | threadSetNice n =>
    cases h
    unfold checkFront mlfqsCalcPriority
    split <;> split <;> simp [away]
  | donatePriority => cases h; exact donateLoop_others _ _ free
  | _ => exact (ranking_eq (execInstr_ranking h rfl)).2.2 t

theorem interrupt_priority {i : Interrupt} (hp : k.mlfqs = false) (h : k.interrupt i = some k')
    (t : ThreadPtr) : (k'.thread t).priority = (k.thread t).priority := by
  cases i with
  | timer =>
    obtain ⟨k1, yield, ticked, yields | rfl⟩ := timer_eq h
    · rw [threadYield_priority yields, (timerInterrupt_ready hp ticked).2.1 t]
    · exact (timerInterrupt_ready hp ticked).2.1 t
  | semaTryDown n =>
    obtain ⟨value, eq⟩ := semaTryDown_named k n
    rw [← some.inj h, eq]
    rfl
  | semaUp n => exact semaUp_priority h t
  | threadUnblock u =>
    simp only [interrupt] at h
    split_ifs at h
    exact (threadUnblock_ready h).2.1 t

theorem execInstr_created (h : k.execInstr i = some k') : k.created ≤ k'.created := by
  by_cases leaving : i = .threadExit
  · subst leaving
    exact le_of_eq (Prod.mk.inj (listed_of_fixed (schedule_fixed h))).2.symm
  · by_cases new : ∃ p, i = .initThread p
    · obtain ⟨p, rfl⟩ := new
      simp only [execInstr] at h
      split_ifs at h
      cases h
      exact Nat.le_succ _
    · exact le_of_eq (Prod.mk.inj (execInstr_listed h leaving fun p eq => new ⟨p, eq⟩)).2.symm

/-- The holders of a lock after an instruction: the same, or the thread that wrote it. -/
theorem execInstr_holder {l : LockPtr} (h : k.execInstr i = some k')
    (held : k'.holder l = some t) : k.holder l = some t ∨ t = k.current ∧ i = .setHolder l := by
  by_cases hw : ∀ l, i ≠ .setHolder l ∧ i ≠ .clearHolder l
  · rw [(execInstr_mlfqs h).2 hw] at held
    exact .inl held
  · obtain ⟨l', hw⟩ := not_forall.mp hw
    by_cases set : i = .setHolder l'
    · subst set
      rw [← some.inj h, setHolder_holder, Function.update_apply] at held
      split_ifs at held with eq
      · subst eq; exact .inr ⟨(some.inj held).symm, rfl⟩
      · exact .inl held
    · obtain rfl := not_not.mp fun ne => hw ⟨set, ne⟩
      rw [← some.inj h, setHolder_holder, Function.update_apply] at held
      split_ifs at held
      exact .inl held

theorem Fresh.exec (hf : Fresh k) (inv : Scheduled k)
    (unstarted : Unstarted (k.thread k.current).stack) (h : k.exec = some k') : Fresh k' := by
  obtain ⟨i, rest, old, h⟩ := exec_eq h
  obtain ⟨new, he, hr⟩ := inv.emits h
  have grows : (k.setStack k.current rest).created ≤ k'.created := execInstr_created h
  constructor
  case holders =>
    intro l t held
    have was : t < k.created ∧ (.resume .created ∉ (k.thread t).stack ∨
        t = k.current ∧ i = .setHolder l) := by
      rcases execInstr_holder h held with same | ⟨rfl, eq⟩
      · exact ⟨(hf.holders l t same).1, .inl (hf.holders l t same).2⟩
      · exact ⟨inv.tidy.born inv.up, .inr ⟨rfl, eq⟩⟩
    refine ⟨Nat.lt_of_lt_of_le was.1 grows, ?_⟩
    by_cases hp : t = k.current
    · subst hp
      rw [hr.self]
      intro again
      rcases mem_append.mp again with again | again
      · exact (Unstarted.emits he).1 _ again rfl
      · rcases was.2 with started | ⟨_, rfl⟩
        · rw [old] at started
          exact started (.tail _ again)
        · rw [old] at unstarted
          obtain ⟨w, eq⟩ := (pairwise_cons.mp unstarted).1 _ again rfl
          cases eq
    · grind
  case asked =>
    -- A thread under creation is blocked and holds nothing, so its priority stays.
    have hk : ∀ u st t p, .create st t p ∈ (k.thread u).stack → (k'.thread t).priority = p := by
      intro u st t p mem
      obtain ⟨hb, blocked, code⟩ := inv.tidy.creating u st t p mem
      have away : t ≠ k.current := by rintro rfl; exact inv.up blocked
      have free : ∀ l, k.holder l ≠ some t := by grind
      rw [execInstr_priority h away (Nat.ne_of_lt hb) free]
      simpa using hf.asked u st t p mem
    intro u st t p mem
    by_cases hp : u = k.current
    · subst hp
      rw [hr.self] at mem
      rcases mem_append.mp mem with mem | mem
      · rcases he.creates mem with ⟨st', rfl⟩ | rfl
        · exact hk k.current st' t p (by rw [old]; exact (.head _))
        · obtain ⟨hb, asked⟩ := inv.born_initThread h
          have code : [.lockAcquire tidLock, .create .allocate k.created p] = new :=
            append_cancel_right (hb.self.symm.trans hr.self : [_, _] ++ rest = _)
          rw [← code] at mem
          obtain ⟨_, rfl, _⟩ : st = .allocate ∧ t = k.created ∧ p = p := by simpa using mem
          exact asked
      · exact hk k.current st t p (by rw [old]; exact .tail _ mem)
    · grind

/-- Events that change no holder, no priority and only add plain code. -/
theorem Fresh.recode {code : List Instr} (hf : Fresh k) (hr : Recoded k k' code)
    (created : k'.created = k.created) (holder : k'.holder = k.holder)
    (priority : ∀ t, (k'.thread t).priority = (k.thread t).priority)
    (hp : ∀ i ∈ code, i ∈ (k.thread k.current).stack ∨
      i ≠ .resume .created ∧ ∀ st t p, i ≠ .create st t p) : Fresh k' := by
  have mem : ∀ t i, i ∈ (k'.thread t).stack → i ∈ (k.thread t).stack ∨
      (∀ st t p, i ≠ .create st t p) ∧ (t < k.created → i ≠ .resume .created) := by
    intro t i hi
    by_cases h : t = k.current
    · grind
    · grind
  constructor
  case holders =>
    intro l t held
    rw [holder] at held
    obtain ⟨hb, started⟩ := hf.holders l t held
    refine ⟨by rw [created]; exact hb, fun again => ?_⟩
    rcases mem t _ again with was | ⟨_, ne⟩
    · exact started was
    · exact ne hb rfl
  case asked => grind

/-- What holds in every state of a run without MLFQS in which every thread made ready
behind the running thread's back has no higher priority. -/
structure Prioritized (k : Kernel) : Prop where
  inv : Scheduled k
  covered : ∀ t, Covered (k.thread t).stack
  unstarted : ∀ t, Unstarted (k.thread t).stack
  plain : k.mlfqs = false
  fresh : Fresh k
  order : k.Order

theorem Prioritized.step {e : Event} (good : Prioritized k) (prompt : k.Prompt e)
    (h : k.step e = some k') : Prioritized k' := by
  obtain ⟨inv, covered, unstarted, hp, hf, order⟩ := good
  have covered' := Flows.invariant inv (fun _ _ => Covered.flows) (by simp [Covered]) covered h
  have unstarted' :=
    Flows.invariant inv (fun _ _ => Unstarted.flows) (by simp [Unstarted]) unstarted h
  have inv' := inv.step h
  cases e with
  | call c =>
    simp only [Kernel.step] at h
    split_ifs at h with free
    have empty := stack_eq_nil free
    cases h
    refine ⟨inv', covered', unstarted', hp, ?_, ?_⟩
    · have recoded : Recoded k (k.push c.code) c.code := ⟨by simp [empty], by simp +contextual⟩
      refine hf.recode recoded rfl rfl (by simp) fun i hi => .inr ?_
      cases c <;> simp_all [Call.code]
    · refine order.keep rfl (by simp) (fun r hr => .inl ⟨hr, by simp⟩) ?_
      simp [empty]
  | exec =>
    obtain ⟨i, rest, old, exec⟩ := exec_eq h
    have mlfqs := ((execInstr_mlfqs exec).1.trans rfl).trans hp
    exact ⟨inv', covered', unstarted', mlfqs, hf.exec inv (unstarted _) h,
      order.exec inv hf (covered _) prompt h⟩
  | interrupt i =>
    simp only [Kernel.step] at h
    split_ifs at h
    have mlfqs := interrupt_mlfqs h
    have hl := Prod.mk.inj (interrupt_listed h)
    refine ⟨inv', covered', unstarted', mlfqs.1.trans hp, ?_, order.interrupt inv hp prompt h⟩
    rcases interrupt_recoded h with stays | yields
    · exact hf.recode stays hl.2 mlfqs.2 (interrupt_priority hp h) fun i hi => .inl hi
    · refine hf.recode yields hl.2 mlfqs.2 (interrupt_priority hp h) fun i hi => ?_
      rcases mem_cons.mp hi with rfl | hi
      · exact .inr ⟨by simp, by simp⟩
      · exact .inl hi

end

theorem prioritized_boot (value : Nat → Nat) : Prioritized (boot false value) := by
  have byCases {P : Nat → Thread → Prop} := @boot_cases false value P
  refine ⟨scheduled_boot false value, ?_, ?_, rfl, ⟨nofun, ?_⟩, ?_⟩
  · exact byCases (P := fun _ th => Covered th.stack) (by simp [Covered]) (by simp [Covered])
      (by simp [Covered])
  · exact byCases (P := fun _ th => Unstarted th.stack) (by simp [Unstarted]) (by simp [Unstarted])
      (by simp [Unstarted])
  · intro u
    exact byCases (P := fun _ th => ∀ st t p, .create st t p ∈ th.stack →
      ((boot false value).thread t).priority = p) (by simp) (by simp) (by simp) u
  · left
    intro r hr
    obtain rfl := mem_singleton.mp hr
    exact (by decide : priMin ≤ priDefault)

/-- In every run without MLFQS whose steps are all prompt, the thread in its own code has
the highest priority of those that can run. -/
theorem strict_priority {value : Nat → Nat} {history : List Event} {k : Kernel}
    (run : Machine.Run step Prompt (boot false value) history k) (back : k.inThreadCode = true) :
    ∀ r ∈ k.readyList, (k.thread r).priority ≤ (k.thread k.current).priority := by
  have good : Prioritized k := run.invariant (prioritized_boot value)
    fun _ _ _ good prompt h => good.step prompt h
  have empty : (k.thread k.current).stack = [] := by simpa [inThreadCode] using back
  rcases good.order with strict | ⟨i, hi, _⟩ | ⟨p, hp, _⟩
  · exact strict
  · simp [empty] at hi
  · simp [empty] at hp

/-- A thread of the same priority sleeps until the next tick, which makes it ready behind
the initial thread. -/
def wakeEqual : List Event :=
  replicate 7 .exec ++ .call (.threadCreate 31 true) :: replicate 17 .exec ++
  .call .threadYield :: replicate 2 .exec ++
  [.call (.threadSleep 1), .exec, .exec, .interrupt .timer]

theorem strict_priority_wakeEqual :
    ∃ k, Machine.runs step Prompt (boot false fun _ => 0) wakeEqual = some k ∧
      k.readyList = [2] ∧
      ∀ r ∈ k.readyList, (k.thread r).priority ≤ (k.thread k.current).priority := by
  have state : (Machine.runs step Prompt (boot false fun _ => 0) wakeEqual).map
      (fun k => (k.inThreadCode, k.readyList)) = some (true, [2]) := by decide +kernel
  obtain ⟨k, hr, seen⟩ := map_eq_some_iff.mp state
  obtain ⟨code, ready⟩ := Prod.mk.inj seen
  exact ⟨k, hr, ready, strict_priority (Machine.runs_run hr) code⟩

/-- The initial thread creates a thread of priority 40, which goes to sleep until the
next tick. The tick wakes it, and the initial thread goes on. -/
def wakeBehind : List Event :=
  replicate 7 .exec ++ .call (.threadCreate 40 true) :: replicate 19 .exec ++
  [.call (.threadSleep 1), .exec, .exec, .interrupt .timer]

theorem not_strict_after_wake :
    ∃ k, Machine.runs step Machine.Free (boot false fun _ => 0) wakeBehind = some k ∧
      k.inThreadCode = true ∧ k.current = mainThread ∧ 2 ∈ k.readyList ∧
      (k.thread 2).priority > (k.thread k.current).priority := by
  have state : (Machine.runs step Machine.Free (boot false fun _ => 0) wakeBehind).map
      (fun k => (k.inThreadCode, k.current, k.readyList, (k.thread 2).priority,
        (k.thread k.current).priority)) = some (true, mainThread, [2], 40, 31) := by
    decide +kernel
  obtain ⟨k, hr, seen⟩ := map_eq_some_iff.mp state
  simp only [Prod.mk.injEq] at seen
  obtain ⟨code, current, ready, high, low⟩ := seen
  exact ⟨k, hr, code, current, by simp [ready], by rw [high, low]; decide⟩

end Kernel

end Pintos.Threads
