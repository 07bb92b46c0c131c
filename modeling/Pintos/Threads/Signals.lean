import Pintos.Threads.Condition

/-!
# No condition signal is lost or duplicated

The stage of a thread in `cond_wait` can be read off the lists of the conditions, its
private semaphore, the ups that signallers have left to do and its own code. Every
step of the kernel keeps this reading in line with the log, and the log orderly.
-/

namespace Pintos.Threads

open Ordered List

namespace Kernel

variable {i : Instr}

theorem execInstr_condWaiters {k k' : Kernel} (h : k.execInstr i = some k')
    (wait : ∀ c l, i ≠ .condWait c l) (signal : ∀ c l stray, i ≠ .condSignal c l stray) :
    k'.condWaiters = k.condWaiters := by
  obtain ⟨k1, hw, eq⟩ := execInstr_writes h
  rw [condWaiters_of_fixed eq]
  cases hw with
  | wait c l => exact absurd rfl (wait c l)
  | signal c l stray => exact absurd rfl (signal c l stray)
  | _ => rfl

/-- Interrupts do nothing to conditions and private semaphores. -/
theorem interrupt_waiters {k k' : Kernel} {i : Interrupt} (h : k.interrupt i = some k') :
    k'.condWaiters = k.condWaiters ∧ ∀ t, k'.sema (.ofWaiter t) = k.sema (.ofWaiter t) := by
  rcases interrupt_writes h with eq | ⟨n, v, eq⟩ <;>
    rw [condWaiters_of_fixed eq, sema_of_fixed eq]
  · exact ⟨rfl, fun _ => rfl⟩
  · exact ⟨rfl, fun _ => setSema_other (by simp)⟩

/-- The kernel's part in the stages of the threads. -/
@[grind cases] structure Staged (st : ThreadPtr → Stage) (k : Kernel) : Prop where
  listed : ∀ t c, t ∈ k.condWaiters c ↔ ∃ l, st t = .linked c l
  nodup : ∀ c, (k.condWaiters c).Nodup
  value : ∀ t, (k.sema (.ofWaiter t)).value = (st t).value
  asleep : ∀ t, k.inLoop (.ofWaiter t) t →
    (t ∈ (k.sema (.ofWaiter t)).waiters ↔ (st t).value = 0)
  ups : ∀ t b, (k.thread b).stack.filter (Instr.signals t) = (st t).signalCode t b
  code : ∀ t, Shape t (st t) (k.thread t).stack

/-- A thread in its own code is not in `cond_wait`. -/
def Back (st : ThreadPtr → Stage) (k : Kernel) : Prop :=
  ∀ t, (k.thread t).stack = [] → st t = .out

section
variable {k k' : Kernel} {st : ThreadPtr → Stage} {code : List Instr} {t : ThreadPtr} {c : CondPtr}
  {l : LockPtr} {order : List ThreadPtr} {seen : List CondEvent} {e : SortEvent}

theorem Staged.others (hs : Staged st k) (back : Back st k)
    (inv : Scheduled k) (hr : Recoded k k' code) (away : t ≠ k.current) :
    Shape t (st t) (k'.thread t).stack ∧ ∀ u, (k'.thread t).stack.filter (Instr.signals u) =
      (k.thread t).stack.filter (Instr.signals u) := by
  rcases hr.others t away with eq | ⟨rfl, new⟩
  · rw [eq]; exact ⟨hs.code t, fun _ => rfl⟩
  · have none := (inv.tidy.unborn k.created (Nat.le_refl _)).2
    rw [new, none, back k.created none]
    exact ⟨by simp [Shape], by simp⟩

theorem Staged.signals_same (hs : Staged st k) (back : Back st k)
    (inv : Scheduled k) (hr : Recoded k k' code)
    (ups : ∀ t, code.filter (Instr.signals t) = (k.thread k.current).stack.filter (Instr.signals t))
    (t b : ThreadPtr) : (k'.thread b).stack.filter (Instr.signals t) = (st t).signalCode t b := by
  rw [← hs.ups t b]
  by_cases h : b = k.current
  · rw [h, hr.self, ups]
  · exact (hs.others back inv hr h).2 t

/-- A step that leaves conditions and private semaphores alone. -/
theorem Staged.keep (hs : Staged st k) (back : Back st k)
    (inv : Scheduled k) (hr : Recoded k k' code) (lists : k'.condWaiters = k.condWaiters)
    (sema : ∀ t, k'.sema (.ofWaiter t) = k.sema (.ofWaiter t))
    (loop : ∀ t, k'.inLoop (.ofWaiter t) t → k.inLoop (.ofWaiter t) t)
    (ups : ∀ t, code.filter (Instr.signals t) = (k.thread k.current).stack.filter (Instr.signals t))
    (shape : Shape k.current (st k.current) code) : Staged st k' where
  listed := by rw [lists]; exact hs.listed
  nodup := by rw [lists]; exact hs.nodup
  value t := by rw [sema]; exact hs.value t
  asleep t hi := by rw [sema]; exact hs.asleep t (loop t hi)
  ups := hs.signals_same back inv hr ups
  code t := by
    by_cases h : t = k.current
    · rw [h, hr.self]; exact shape
    · exact (hs.others back inv hr h).1

variable {rest : List Instr}

theorem Staged.plain (hs : Staged st k) (back : Back st k) (inv : Scheduled k)
    (loop : LoopOnTop (k.thread k.current).stack) (old : k.Next i rest) (ne : i.concerns = false)
    (h : k.Does i rest k') : Staged st k' := by
  obtain ⟨new, he, hr⟩ := inv.emits h
  refine hs.keep back inv hr ?_ (fun t => ?_) (fun t => ?_) (fun t => ?_) ?_
  · refine execInstr_condWaiters (k := k.setStack k.current rest) h ?_ ?_
    · rintro c l rfl; simp at ne
    · rintro c l stray rfl; simp at ne
  · refine execInstr_sema (k := k.setStack k.current rest) h ?_
    cases i with
    | semaDown s r | semaTryDown s | semaUp s => cases s <;> simp_all
    | _ => simp_all
  · refine (inLoop_same inv loop old he hr ?_ t).mp
    rintro r rfl; simp at ne
  · have none : i.signals t = false := by
      cases i with
      | semaUp s => cases s <;> simp_all
      | _ => rfl
    have emitted := he.signals (t := t) (by rintro c l stray rfl; simp at ne)
    rw [filter_append, emitted, old, filter_cons_of_neg (Bool.eq_false_iff.mp none)]
    rfl
  · exact (old ▸ hs.code k.current).exec he ne

/-- `cond_wait` links its element. -/
theorem Staged.condWait (hs : Staged st k) (back : Back st k)
    (inv : Scheduled k) (loop : LoopOnTop (k.thread k.current).stack)
    (tame : Tame (k.thread k.current).stack) (old : k.Next (.condWait c l) rest)
    (h : k.Does (.condWait c l) rest k') : Allowed st (.linked k.current c l) ∧ Staged
    (fun t => (st t).after t (.linked k.current c l)) k' := by
  have out : st k.current = .out := (old ▸ hs.code k.current).out_of rfl rfl (fun _ => rfl) rfl
  -- Nothing comes after `cond_wait` in the code of its caller.
  have last : rest = [] := by
    cases rest with
    | nil => rfl
    | cons j rest => grind
  subst last
  obtain ⟨new, he, hr⟩ := inv.emits h
  simp only [Does, execInstr] at h
  split_ifs at h
  have self : (k'.thread k.current).stack =
      [.lockRelease l, .semaDown (.ofWaiter k.current) false, .lockAcquire l] := by
    cases h; simp
  have lists : k'.condWaiters = Function.update k.condWaiters c
    (k.condWaiters c ++ [k.current]) := by
    cases h; rfl
  have sema : k'.sema = Function.update k.sema (.ofWaiter k.current) ⟨0, []⟩ := by
    cases h; rfl
  have hu : ∀ c', k.current ∉ k.condWaiters c' := by grind
  refine ⟨out, ⟨fun t c' => ?_, fun c' => ?_, fun t => ?_, fun t hi => ?_, fun t b => ?_,
    fun t => ?_⟩⟩
  · rw [lists, Function.update_apply]
    by_cases hp : t = k.current
    · subst hp
      split_ifs with eq
      · simp [Stage.after, eq]
      · simp [Stage.after, hu, Ne.symm eq]
    · have stays : (st t).after t (.linked k.current c l) = st t := by
        simp [Stage.after, Ne.symm hp]
      rw [stays, ← hs.listed]
      split_ifs with eq
      · simp [hp, eq]
      · rfl
  · rw [lists, Function.update_apply]
    split_ifs
    · simpa using Nodup.concat (hu c) (hs.nodup c)
    · exact hs.nodup c'
  · rw [sema, Function.update_apply]
    by_cases hp : t = k.current
    · simp [hp, Stage.after, Stage.value]
    · simpa [hp, Stage.after, Ne.symm hp] using hs.value t
  · have away : t ≠ k.current := by
      rintro rfl
      simp [inLoop, self] at hi
    have was := (inLoop_same inv loop old he hr (by simp) t).mp hi
    rw [sema, Function.update_of_ne (by simpa using away)]
    simpa [Stage.after, Ne.symm away] using hs.asleep t was
  · have none : ∀ u, (new ++ []).filter (Instr.signals u) =
        (k.thread k.current).stack.filter (Instr.signals u) := by
      intro u
      rw [filter_append, he.signals (t := u) (by simp), old]
      rfl
    rw [hs.signals_same back inv hr none t b]
    by_cases hp : t = k.current
    · simp [hp, Stage.after, out, Stage.signalCode]
    · simp [Stage.after, Ne.symm hp]
  · by_cases hp : t = k.current
    · rw [hp, self]
      simp only [Stage.after, if_true]
      exact ⟨[.lockRelease l], false, rfl, by simp⟩
    · simpa [Stage.after, Ne.symm hp] using (hs.others back inv hr hp).1

/-- `cond_signal` as code, whatever order the sort has left. -/
theorem signalFirst_recoded (h : (k.setStack k.current rest).signalFirst c l order = some k') :
    Recoded k k' ((order.head?.map fun e => Instr.semaUp (.ofWaiter e)).toList ++ rest) := by
  unfold signalFirst at h
  split_ifs at h
  cases order with
  | nil =>
    cases h
    exact ⟨by simp, by simp +contextual⟩
  | cons e others =>
    cases h
    exact ⟨by simp, by simp +contextual⟩

/-- `cond_signal` removes one element, if there is any. -/
theorem Staged.signalFirst {stray : ThreadPtr → Int} (hs : Staged st k) (back : Back st k)
    (inv : Scheduled k) (loop : LoopOnTop (k.thread k.current).stack)
    (old : k.Next (.condSignal c l stray) rest) (perm : order.Perm (k.condWaiters c))
    (h : (k.setStack k.current rest).signalFirst c l order = some k') : Allowed st
    (.signalled k.current c order.head?) ∧ Staged
    (fun t => (st t).after t (.signalled k.current c order.head?)) k' := by
  have out : st k.current = .out := (old ▸ hs.code k.current).out_of rfl rfl (fun _ => rfl) rfl
  have hr := signalFirst_recoded h
  have hp := old ▸ hs.code k.current
  rw [out] at hp
  unfold Kernel.signalFirst at h
  split_ifs at h
  cases order with
  | nil =>
    have empty : k.condWaiters c = [] := perm_nil.mp perm.symm
    rw [← Option.some.inj h] at hr ⊢
    refine ⟨fun t l' hl => ?_, ?_⟩
    · have mem := (hs.listed t c).mpr ⟨l', hl⟩
      simp [empty] at mem
    · refine hs.keep back inv hr rfl (fun _ => rfl) (fun t => ?_) (fun t => ?_) ?_
      · exact (inLoop_same inv loop old (.signalNone c l stray) hr (by simp) t).mp
      · simp [old]
      · rw [out]
        exact fun i hi => hp i (.tail _ hi)
  | cons e others =>
    obtain ⟨l', hl⟩ := (hs.listed e c).mp (perm.mem_iff.mp (.head _))
    have others_nodup : (e :: others).Nodup := perm.nodup_iff.mpr (hs.nodup c)
    have lists : k'.condWaiters = Function.update k.condWaiters c others := by
      cases h; rfl
    have sema : k'.sema = k.sema := by cases h; rfl
    have away : e ≠ k.current := by
      rintro rfl
      cases out.symm.trans hl
    have stays : ∀ t, t ≠ e → (st t).after t (.signalled k.current c (some e)) = st t := by
      intro t ne; simp [Stage.after, Ne.symm ne]
    have hm : (st e).after e (.signalled k.current c (some e)) = .removed l' k.current := by
      simp [Stage.after, hl]
    rw [head?_cons]
    refine ⟨⟨l', hl⟩, ⟨fun t c' => ?_, fun c' => ?_, fun t => ?_, fun t lt => ?_,
      fun t b => ?_, fun t => ?_⟩⟩
    · rw [lists, Function.update_apply]
      by_cases here : t = e
      · grind
      · rw [stays t here, ← hs.listed]
        split_ifs with eq
        · rw [eq, ← perm.mem_iff]
          simp [here]
        · rfl
    · rw [lists, Function.update_apply]
      split_ifs
      · exact (nodup_cons.mp others_nodup).2
      · exact hs.nodup c'
    · rw [sema, hs.value t]
      by_cases here : t = e
      · rw [here, hm, hl]; rfl
      · rw [stays t here]
    · have was := (inLoop_same inv loop old (.signalOne c l stray e) hr (by simp) t).mp lt
      rw [sema, hs.asleep t was]
      by_cases here : t = e
      · rw [here, hm, hl]; rfl
      · rw [stays t here]
    · have ups := hs.ups t b
      by_cases here : t = e
      · subst here
        rw [hl] at ups
        rw [hm]
        by_cases own : b = k.current
        · rw [own, old] at ups
          have none : rest.filter (Instr.signals t) = [] := by simpa [Stage.signalCode] using ups
          rw [own, hr.self]
          simp [Stage.signalCode, none]
        · rw [(hs.others back inv hr own).2, ups]
          simp [Stage.signalCode, own]
      · rw [stays t here, ← ups]
        by_cases own : b = k.current
        · rw [own, hr.self, old]
          simp [Ne.symm here]
        · exact (hs.others back inv hr own).2 t
    · by_cases own : t = k.current
      · rw [stays t (own ▸ away.symm), own, hr.self, out]
        intro i hi
        rcases mem_cons.mp hi with rfl | hi
        · rfl
        · exact hp i (.tail _ hi)
      · have shape := (hs.others back inv hr own).1
        by_cases here : t = e
        · subst here
          rw [hl] at shape
          rw [hm]
          exact shape
        · rw [stays t here]; exact shape

/-- Only its owner waits on a private semaphore. -/
theorem own_waiter (inv : Scheduled k) {u : ThreadPtr}
    (hw : u ∈ (k.sema (.ofWaiter t)).waiters) : u = t := by
  have top := ((inv.lists.waiting _ u).mp hw).2
  exact (inv.tidy.ownWaiter u t true (mem_of_mem_head? top)).symm

/-- The signaller ups the element it removed. -/
theorem Staged.up (hs : Staged st k) (back : Back st k) (inv : Scheduled k)
    (loop : LoopOnTop (k.thread k.current).stack) (old : k.Next (.semaUp (.ofWaiter t)) rest)
    (h : k.Does (.semaUp (.ofWaiter t)) rest k') : Allowed st (.upped k.current t) ∧ Staged
    (fun u => (st u).after u (.upped k.current t)) k' := by
  have ups := hs.ups t k.current
  rw [old, filter_cons_of_pos (by simp)] at ups
  obtain ⟨l, removed, clean⟩ : ∃ l, st t = .removed l k.current ∧
      rest.filter (Instr.signals t) = [] := by
    unfold Stage.signalCode at ups
    split at ups
    · grind
    · cases ups
  obtain ⟨new, he, hr⟩ := inv.emits h
  have ha : ∀ u, u ≠ t → k'.sema (.ofWaiter u) = k.sema (.ofWaiter u) := fun u ne =>
    execInstr_sema (k := k.setStack k.current rest) h (by simpa using Ne.symm ne)
  have lists : k'.condWaiters = k.condWaiters :=
    execInstr_condWaiters (k := k.setStack k.current rest) h (by simp) (by simp)
  obtain ⟨k1, up, eq⟩ := Option.map_eq_some_iff.mp h
  have upped : Upped (k.sema (.ofWaiter t)) (k'.sema (.ofWaiter t)) := by
    have raised := semaUp_upped up
    rw [← eq]; exact raised
  have zero : (k.sema (.ofWaiter t)).value = 0 := by rw [hs.value, removed]; rfl
  have one : (k'.sema (.ofWaiter t)).value = 1 := by
    rcases upped with ⟨_, sema⟩ | ⟨_, _, _, sema⟩ <;> simp [sema, zero, unsigned]
  have awake : t ∉ (k'.sema (.ofWaiter t)).waiters := by
    rcases upped with ⟨_, sema⟩ | ⟨u, others, perm, sema⟩
    · simp [sema]
    · have nodup : (u :: others).Nodup := perm.nodup_iff.mpr (inv.lists.waitersNodup _)
      have first : u = t := own_waiter inv (perm.mem_iff.mp (.head _))
      rw [sema]
      exact first ▸ (nodup_cons.mp nodup).1
  have stays : ∀ u, u ≠ t → (st u).after u (.upped k.current t) = st u := by
    intro u ne; simp [Stage.after, Ne.symm ne]
  have hm : (st t).after t (.upped k.current t) = .upped l := by
    simp [Stage.after, removed]
  refine ⟨⟨l, removed⟩, ⟨fun u c => ?_, fun c => ?_, fun u => ?_, fun u lt => ?_,
    fun u b => ?_, fun u => ?_⟩⟩
  · rw [lists, hs.listed]
    by_cases here : u = t
    · rw [here, hm, removed]; simp
    · rw [stays u here]
  · rw [lists]; exact hs.nodup c
  · by_cases here : u = t
    · rw [here, hm, one]; rfl
    · rw [stays u here, ha u here]; exact hs.value u
  · by_cases here : u = t
    · rw [here, hm]
      exact iff_of_false awake (by simp [Stage.value])
    · have was := (inLoop_same inv loop old he hr (by simp) u).mp lt
      rw [stays u here, ha u here]
      exact hs.asleep u was
  · have was := hs.ups u b
    have pushed := he.signals (t := u) (by simp)
    by_cases here : u = t
    · subst here
      rw [hm]
      by_cases own : b = k.current
      · rw [own, hr.self, filter_append, pushed, clean]; rfl
      · rw [(hs.others back inv hr own).2, was, removed]
        simp [Stage.signalCode, own]
    · rw [stays u here, ← was]
      by_cases own : b = k.current
      · rw [own, hr.self, filter_append, pushed, old]
        simp [Ne.symm here]
      · exact (hs.others back inv hr own).2 u
  · by_cases own : u = k.current
    · have out : st k.current = .out :=
        (old ▸ hs.code k.current).out_of rfl rfl (fun _ => rfl) rfl
      have away : k.current ≠ t := by
        rintro rfl
        cases out.symm.trans removed
      have hp := old ▸ hs.code k.current
      rw [own, stays _ away, hr.self, out]
      rw [out] at hp
      intro i hi
      rcases mem_append.mp hi with hi | hi
      · exact he.personal (by simp) rfl i hi
      · exact hp i (.tail _ hi)
    · have shape := (hs.others back inv hr own).1
      by_cases here : u = t
      · rw [here, hm]
        rw [here, removed] at shape
        exact shape
      · rw [stays u here]; exact shape

/-- The waiter at its private semaphore: it sleeps, or it passes if it was upped. -/
theorem Staged.down {r : Bool} (hs : Staged st k) (back : Back st k)
    (inv : Scheduled k) (old : k.Next (.semaDown (.ofWaiter t) r) rest)
    (h : k.Does (.semaDown (.ofWaiter t) r) rest k') : if (k.sema (.ofWaiter t)).value = 0 then
    Staged st k' else Allowed st (.passed t) ∧ Staged (fun u => (st u).after u (.passed t)) k' := by
  obtain rfl : t = k.current := inv.tidy.ownWaiter k.current t r (by rw [old]; exact (.head _))
  have ha : ∀ u, u ≠ k.current → k'.sema (.ofWaiter u) = k.sema (.ofWaiter u) := fun u ne =>
    execInstr_sema (k := k.setStack k.current rest) h (by simpa using Ne.symm ne)
  have lists : k'.condWaiters = k.condWaiters :=
    execInstr_condWaiters (k := k.setStack k.current rest) h (by simp) (by simp)
  obtain ⟨l, last, stages⟩ := (old ▸ hs.code k.current).at_down
  subst last
  simp only [Does, execInstr, semaDown] at h
  split_ifs at h with empty
  · have empty : (k.sema (.ofWaiter k.current)).value = 0 := empty
    rw [if_pos empty]
    have hr : Recoded k k' [.semaDown (.ofWaiter k.current) true, .lockAcquire l] :=
      .of_schedule h (by simp) (by simp +contextual)
    have sema := congrFun (sema_of_fixed (schedule_fixed h)) (.ofWaiter k.current)
    have hw : k.current ∈ (k'.sema (.ofWaiter k.current)).waiters := by rw [sema]; simp
    have value : (k'.sema (.ofWaiter k.current)).value = 0 := by rw [sema]; simpa using empty
    refine ⟨fun t c => ?_, fun c => ?_, fun t => ?_, fun t hi => ?_, ?_, fun t => ?_⟩
    · rw [lists]; exact hs.listed t c
    · rw [lists]; exact hs.nodup c
    · grind
    · by_cases hp : t = k.current
      · rw [hp, ← hs.value]
        exact iff_of_true hw empty
      · have was := (inLoop_of_recoded inv hr t).mp hi
        rw [if_neg hp] at was
        rw [ha t hp]
        exact hs.asleep t was
    · exact hs.signals_same back inv hr fun t => by simp [old]
    · by_cases hp : t = k.current
      · rw [hp, hr.self]
        rcases stages with ⟨c, eq⟩ | ⟨b, eq⟩ | eq <;> rw [eq] <;> exact ⟨[], true, rfl, by simp⟩
      · exact (hs.others back inv hr hp).1
  · have unit : (k.sema (.ofWaiter k.current)).value ≠ 0 := empty
    rw [if_neg unit]
    have upped : st k.current = .upped l := by
      rw [hs.value] at unit
      rcases stages with ⟨c, eq⟩ | ⟨b, eq⟩ | eq
      · rw [eq] at unit; exact absurd rfl unit
      · rw [eq] at unit; exact absurd rfl unit
      · exact eq
    have hr : Recoded k k' [.lockAcquire l] := by
      cases h; exact ⟨by simp [afterDown], by simp +contextual⟩
    have value : (k'.sema (.ofWaiter k.current)).value = 0 := by
      have one : (k.sema (.ofWaiter k.current)).value = 1 := by rw [hs.value, upped]; rfl
      cases h
      simp [one]
    have stays : ∀ u, u ≠ k.current → (st u).after u (.passed k.current) = st u := by
      intro u ne; simp [Stage.after, Ne.symm ne]
    have hm : (st k.current).after k.current (.passed k.current) = .passed l := by
      simp [Stage.after, upped]
    refine ⟨⟨l, upped⟩, ⟨fun t c => ?_, fun c => ?_, fun t => ?_, fun t hi => ?_, fun t b => ?_,
      fun t => ?_⟩⟩
    · rw [lists, hs.listed]
      by_cases hp : t = k.current
      · rw [hp, hm, upped]; simp
      · rw [stays t hp]
    · rw [lists]; exact hs.nodup c
    · by_cases hp : t = k.current
      · rw [hp, hm, value]; rfl
      · rw [stays t hp, ha t hp]; exact hs.value t
    · have hi := (inLoop_of_recoded inv hr t).mp hi
      split_ifs at hi with hp
      · simp at hi
      · rw [stays t hp, ha t hp]
        exact hs.asleep t hi
    · rw [hs.signals_same back inv hr (fun u => by simp [old]) t b]
      by_cases hp : t = k.current
      · rw [hp, hm, upped]; rfl
      · rw [stays t hp]
    · by_cases hp : t = k.current
      · rw [hp, hm, hr.self]
        exact .inr ⟨[], .lockAcquire l, rfl, by simp, by simp⟩
      · rw [stays t hp]; exact (hs.others back inv hr hp).1

/-- What runs are made of: the scheduler's lists and the forms of code. -/
@[grind cases] structure Coded (k : Kernel) : Prop where
  inv : Scheduled k
  loop : ∀ t, LoopOnTop (k.thread t).stack
  tame : ∀ t, Tame (k.thread t).stack

theorem Staged.exec (hs : Staged (stage seen) k)
    (back : Back (stage seen) k) (coded : Coded k) (orderly : Orderly seen) (h : k.exec = some k') :
    Orderly (k.condActs (.event .exec) ++ seen) ∧
      Staged (stage (k.condActs (.event .exec) ++ seen)) k' := by
  obtain ⟨i, rest, old, h⟩ := exec_eq h
  have loop := coded.loop k.current
  have hq : i.concerns = false → k.condActs (.event .exec) = [] →
      Orderly (k.condActs (.event .exec) ++ seen) ∧
        Staged (stage (k.condActs (.event .exec) ++ seen)) k' := by
    intro ne none
    rw [none]
    exact ⟨orderly, hs.plain back coded.inv loop old ne h⟩
  cases i with
  | condWait c l =>
    have acts : k.condActs (.event .exec) = [.linked k.current c l] := by simp [condActs, old]
    obtain ⟨allowed, staged'⟩ := hs.condWait back coded.inv loop (coded.tame _) old h
    rw [acts]
    exact ⟨⟨allowed, orderly⟩, staged'⟩
  | condSignal c l stray =>
    have acts : k.condActs (.event .exec) =
        [.signalled k.current c (k.condSort stray (k.condWaiters c)).head?] := by
      simp [condActs, old]
    have perm : (k.condSort stray (k.condWaiters c)).Perm (k.condWaiters c) := stableSort_perm _
    rw [execInstr_condSignal, condSort_setStack] at h
    obtain ⟨allowed, staged'⟩ := hs.signalFirst back coded.inv loop old perm h
    rw [acts]
    exact ⟨⟨allowed, orderly⟩, staged'⟩
  | condBroadcast c l stray =>
    have staged' := hs.plain back coded.inv loop old rfl h
    by_cases empty : k.condWaiters c = []
    · have acts : k.condActs (.event .exec) = [.swept c] := by simp [condActs, old, empty]
      rw [acts]
      refine ⟨⟨fun t l' hl => ?_, orderly⟩, staged'⟩
      have mem := (hs.listed t c).mpr ⟨l', hl⟩
      simp [empty] at mem
    · exact hq rfl (by simp [condActs, old, empty])
  | semaUp s =>
    cases s with
    | ofWaiter t =>
      have acts : k.condActs (.event .exec) = [.upped k.current t] := by simp [condActs, old]
      obtain ⟨allowed, staged'⟩ := hs.up back coded.inv loop old h
      rw [acts]
      exact ⟨⟨allowed, orderly⟩, staged'⟩
    | _ => exact hq rfl (by simp [condActs, old])
  | semaDown s r =>
    cases s with
    | ofWaiter t =>
      have down := hs.down back coded.inv old h
      by_cases empty : (k.sema (.ofWaiter t)).value = 0
      · have acts : k.condActs (.event .exec) = [] := by simp [condActs, old, empty]
        rw [if_pos empty] at down
        rw [acts]
        exact ⟨orderly, down⟩
      · have acts : k.condActs (.event .exec) = [.passed t] := by simp [condActs, old, empty]
        rw [if_neg empty] at down
        rw [acts]
        exact ⟨⟨down.1, orderly⟩, down.2⟩
    | _ => exact hq rfl (by simp [condActs, old])
  | semaTryDown s =>
    cases s with
    | ofWaiter t =>
      exact absurd rfl ((coded.tame k.current).untried _ (by rw [old]; exact (.head _)) t)
    | _ => exact hq rfl (by simp [condActs, old])
  | _ => exact hq rfl (by simp [condActs, old])

/-- `cond_signal` with its waiters in some order. -/
theorem stepSorted_signal (h : k.stepSorted (.signal order) = some k') :
    ∃ c l stray rest, (k.thread k.current).stack = .condSignal c l stray :: rest ∧
      order.Perm (k.condWaiters c) ∧ (k.setStack k.current rest).signalFirst c l order =
        some k' := by
  simp only [stepSorted] at h
  split at h
  · grind
  · cases h

theorem Staged.acts (hs : Staged (stage seen) k) (back : Back (stage seen) k) (coded : Coded k)
    (orderly : Orderly seen) (h : k.stepSorted e = some k') :
    Orderly (k.condActs e ++ seen) ∧ Staged (stage (k.condActs e ++ seen)) k' := by
  cases e with
  | signal order =>
    obtain ⟨c, l, stray, rest, old, perm, h⟩ := stepSorted_signal h
    have acts : k.condActs (.signal order) = [.signalled k.current c order.head?] := by
      simp [condActs, old]
    obtain ⟨allowed, staged'⟩ := hs.signalFirst back coded.inv (coded.loop _) old perm h
    rw [acts]
    exact ⟨⟨allowed, orderly⟩, staged'⟩
  | event e =>
    cases e with
    | exec => exact hs.exec back coded orderly h
    | call c =>
      simp only [stepSorted, Kernel.step] at h
      split_ifs at h with free
      have empty := stack_eq_nil free
      have hr : Recoded k k' c.code := by
        cases h; exact ⟨by simp [empty], by simp +contextual⟩
      refine ⟨orderly, hs.keep back coded.inv hr ?_ (fun t => ?_) (fun t => ?_)
        (fun t => ?_) ?_⟩
      · cases h; rfl
      · cases h; rfl
      · rw [inLoop_of_recoded coded.inv hr]
        split_ifs with hp
        · intro top
          have personal := c.code_personal _ (mem_of_mem_head? top)
          simp at personal
        · exact id
      · rw [empty]; cases c <;> simp [Call.code]
      · rw [back _ empty]; exact c.code_personal
    | interrupt i =>
      simp only [stepSorted, Kernel.step] at h
      split_ifs at h with on
      obtain ⟨lists, sema⟩ := interrupt_waiters h
      have loop := fun t => (inLoop_interrupt (s := .ofWaiter t) coded.inv on h t).mp
      rcases interrupt_recoded h with stays | yields
      · exact ⟨orderly, hs.keep back coded.inv stays lists sema loop (fun _ => rfl)
          (hs.code _)⟩
      · exact ⟨orderly, hs.keep back coded.inv yields lists sema loop (by simp)
          ((hs.code _).preempt (back _))⟩

theorem stepSorted_recoded (coded : Coded k) (h : k.stepSorted e = some k') :
    ∃ code, Recoded k k' code := by
  cases e with
  | signal order =>
    obtain ⟨c, l, stray, rest, _, _, h⟩ := stepSorted_signal h
    exact ⟨_, signalFirst_recoded h⟩
  | event e =>
    obtain ⟨code, _, hr⟩ := step_flows coded.inv h
    exact ⟨code, hr⟩

/-- A call ends: a thread that was in `cond_wait` has its lock again. -/
theorem Staged.returned {c : ThreadPtr} (staged : Staged (stage seen) k)
    (empty : (k.thread c).stack = []) : Allowed (stage seen) (.returned c) ∧
      Staged (stage (.returned c :: seen)) k := by
  have shape := staged.code c
  rw [empty] at shape
  have ends : stage seen c = .out ∨ ∃ l, stage seen c = .passed l := by
    cases at_stage : stage seen c with
    | out => exact .inl rfl
    | passed l => exact .inr ⟨l, rfl⟩
    | linked | removed | upped =>
      rw [at_stage] at shape
      obtain ⟨pre, r, code, _⟩ := shape
      simp at code
  have stays : ∀ t, t ≠ c → stage (.returned c :: seen) t = stage seen t := by
    intro t ne; simp [stage, Stage.after, Ne.symm ne]
  have moved : stage (.returned c :: seen) c = .out := by simp [stage, Stage.after]
  refine ⟨ends, ⟨fun t c' => ?_, staged.nodup, fun t => ?_, fun t hi => ?_, fun t b => ?_,
    fun t => ?_⟩⟩
  · grind
  · rw [staged.value]
    by_cases h : t = c
    · rw [h, moved]
      rcases ends with eq | ⟨l, eq⟩ <;> simp [eq, Stage.value]
    · rw [stays t h]
  · rw [staged.asleep t hi]
    by_cases h : t = c
    · rw [h, inLoop, empty] at hi
      cases hi
    · rw [stays t h]
  · rw [staged.ups]
    by_cases h : t = c
    · rw [h, moved]
      rcases ends with eq | ⟨l, eq⟩ <;> simp [eq, Stage.signalCode]
    · rw [stays t h]
  · by_cases h : t = c
    · rw [h, moved, empty]; simp [Shape]
    · rw [stays t h]; exact staged.code t

/-- A thread comes into `cond_wait` only by a call of its own. -/
theorem stage_out {acts : List CondEvent} (out : stage seen t = .out)
    (others : ∀ c l, CondEvent.linked t c l ∉ acts) : stage (acts ++ seen) t = .out := by
  induction acts with
  | nil => exact out
  | cons ev acts ih =>
    have was := ih fun c l mem => others c l (.tail _ mem)
    have ne : ∀ c l, ev ≠ .linked t c l := fun c l eq => others c l (eq ▸ (.head _))
    simp only [cons_append, stage, was]
    unfold Stage.after
    split <;> simp_all

theorem condActs_linked (mem : .linked t c l ∈ k.condActs e) : t = k.current := by
  unfold condActs at mem
  split at mem
  · split at mem <;> simp_all
  · split at mem <;> simp at mem
  · simp at mem

theorem Staged.step (hs : Staged (stage seen) k) (back : Back (stage seen) k) (coded : Coded k)
    (orderly : Orderly seen) (h : k.stepSorted e = some k') :
    Orderly (k.condEvents e ++ seen) ∧ Staged (stage (k.condEvents e ++ seen)) k' ∧
      Back (stage (k.condEvents e ++ seen)) k' := by
  obtain ⟨orderly', staged'⟩ := hs.acts back coded orderly h
  obtain ⟨code, hr⟩ := stepSorted_recoded coded h
  have others : ∀ t, t ≠ k.current → (k'.thread t).stack = [] →
      stage (k.condActs e ++ seen) t = .out := by
    intro t away empty
    refine stage_out ?_ fun c l mem => away (condActs_linked mem)
    rcases hr.others t away with eq | ⟨_, new⟩
    · exact back t (eq ▸ empty)
    · simp [new] at empty
  unfold condEvents condReturns
  rw [h, append_assoc]
  by_cases free : k.inThreadCode
  · -- The thread has no code left, so this is a call or an interrupt.
    have empty := stack_eq_nil free
    have none : ∀ c l, CondEvent.linked k.current c l ∉ k.condActs e := by
      intro c l mem
      unfold condActs at mem
      rw [empty] at mem
      split at mem <;> simp at mem
    rw [if_pos free, nil_append]
    refine ⟨orderly', staged', fun t gone => ?_⟩
    by_cases hp : t = k.current
    · rw [hp]; exact stage_out (back _ empty) none
    · exact others t hp gone
  · rw [if_neg free, Option.elim_some]
    split_ifs with ends
    · obtain ⟨allowed, returned⟩ := staged'.returned (isEmpty_iff.mp ends)
      refine ⟨⟨allowed, orderly'⟩, returned, fun t gone => ?_⟩
      by_cases hp : t = k.current
      · simp [hp, stage, Stage.after]
      · simpa [stage, Stage.after, Ne.symm hp] using others t hp gone
    · refine ⟨orderly', staged', fun t gone => ?_⟩
      by_cases hp : t = k.current
      · rw [hp] at gone
        exact absurd (isEmpty_iff.mpr gone) ends
      · exact others t hp gone

theorem Coded.signal (coded : Coded k) (h : k.stepSorted (.signal order) = some k') : Coded k' := by
  obtain ⟨c, l, stray, rest, old, _, h⟩ := stepSorted_signal h
  have hr := signalFirst_recoded h
  have he : Emits (.condSignal c l stray)
      (order.head?.map fun e => Instr.semaUp (.ofWaiter e)).toList := by
    cases order with
    | nil => exact .signalNone c l stray
    | cons e _ => exact .signalOne c l stray e
  have inv' : Scheduled k' := by
    unfold signalFirst at h
    split_ifs at h
    cases order with
    | nil => cases h; exact coded.inv.done old rfl
    | cons e others =>
      cases h
      refine coded.inv.quiet old [.semaUp (.ofWaiter e)] (.of_other rfl (by simp)) ?_ (by simp) ?_
      · constructor <;> simp +contextual
      · simp +contextual
  have all : ∀ P : List Instr → Prop, (∀ t, P (k.thread t).stack) → P [.resume .created] →
      P ((order.head?.map fun e => Instr.semaUp (.ofWaiter e)).toList ++ rest) →
      ∀ t, P (k'.thread t).stack := by
    intro P was start self t
    by_cases hp : t = k.current
    · rw [hp, hr.self]; exact self
    · grind
  refine ⟨inv', all _ coded.loop (by simp [LoopOnTop]) ((old ▸ coded.loop k.current).emits he),
    all _ coded.tame ⟨by simp, by simp, by simp⟩ ?_⟩
  exact (old ▸ coded.tame k.current).flows (.exec rest he)

theorem Coded.step (coded : Coded k) (h : k.stepSorted e = some k') : Coded k' := by
  cases e with
  | signal order => exact coded.signal h
  | event e =>
    exact ⟨coded.inv.step h, LoopOnTop.step coded.inv coded.loop h,
      Flows.invariant coded.inv (fun _ _ => Tame.flows) ⟨by simp, by simp, by simp⟩ coded.tame h⟩

end

end Kernel

end Pintos.Threads
