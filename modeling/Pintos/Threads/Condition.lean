import Pintos.Threads.SemaphoreCount

/-!
# Condition variables

A waiter goes through five stages: its element is linked into the condition,
removed by a signaller, upped by the same signaller, the waiter passes its private
semaphore, and it returns with the lock. A log of these events is `Orderly` when each
of them comes in its turn. `list_sort` may leave the waiters in any order. The code a
thread has left shows its stage.
-/

namespace Pintos.Threads

open Ordered List

/-- What happens on conditions. A signal says whose element it removed, if any;
`swept` is the end of a `cond_broadcast`; `returned` the end of any call. -/
inductive CondEvent where
  | linked (t : ThreadPtr) (c : CondPtr) (l : LockPtr)
  | signalled (b : ThreadPtr) (c : CondPtr) (removed : Option ThreadPtr)
  | upped (b t : ThreadPtr)
  | passed (t : ThreadPtr)
  | swept (c : CondPtr)
  | returned (t : ThreadPtr)
  deriving DecidableEq, Repr

/-- Where a thread is in `cond_wait`. -/
inductive Stage where
  | out
  | linked (c : CondPtr) (l : LockPtr)
  | removed (l : LockPtr) (signaller : ThreadPtr)
  | upped (l : LockPtr)
  | passed (l : LockPtr)
  deriving DecidableEq, Repr

namespace Stage

def after (t : ThreadPtr) (s : Stage) : CondEvent → Stage
  | .linked u c l => if u = t then .linked c l else s
  | .signalled b _ (some u) =>
    if u = t then match s with
      | .linked _ l => .removed l b
      | _ => s
    else s
  | .upped _ u =>
    if u = t then match s with
      | .removed l _ => .upped l
      | _ => s
    else s
  | .passed u =>
    if u = t then match s with
      | .upped l => .passed l
      | _ => s
    else s
  | .returned u => if u = t then .out else s
  | .signalled _ _ none | .swept _ => s

def value : Stage → Nat
  | .upped _ => 1
  | _ => 0

/-- What thread `b` has left to do as the signaller of `t`. -/
def signalCode (t b : ThreadPtr) : Stage → List Instr
  | .removed _ u => if b = u then [.semaUp (.ofWaiter t)] else []
  | _ => []

end Stage

/-- The stage of each thread after a log, newest event first. -/
def stage : List CondEvent → ThreadPtr → Stage
  | [], _ => .out
  | e :: seen, t => (stage seen t).after t e

/-- The events that may come next when the threads are at these stages. -/
def Allowed (st : ThreadPtr → Stage) : CondEvent → Prop
  | .linked t _ _ => st t = .out
  | .signalled _ c none | .swept c => ∀ t l, st t ≠ .linked c l
  | .signalled _ c (some t) => ∃ l, st t = .linked c l
  | .upped b t => ∃ l, st t = .removed l b
  | .passed t => ∃ l, st t = .upped l
  | .returned t => st t = .out ∨ ∃ l, st t = .passed l

def Orderly : List CondEvent → Prop
  | [] => True
  | e :: seen => Allowed (stage seen) e ∧ Orderly seen

/-- The events of the machine, and `cond_signal` with its waiters in any order the
sort may leave them in. -/
inductive SortEvent where
  | event (e : Event)
  | signal (order : List ThreadPtr)

variable {old : List CondEvent} {t : ThreadPtr} {l : LockPtr} {i : Instr}
  {new rest code : List Instr} {st : Stage}

/-- Who is linked when a broadcast begins has been removed when it ends. -/
theorem Orderly.removed {mid : List CondEvent} {c : CondPtr}
    (orderly : Orderly (mid ++ old)) (linked : stage old t = .linked c l) :
    stage (mid ++ old) t = .linked c l ∨ ∃ b, .signalled b c (some t) ∈ mid := by
  induction mid with
  | nil => exact .inl linked
  | cons ev mid ih =>
    obtain ⟨allowed, was⟩ := orderly
    rcases ih was with still | ⟨b, mem⟩
    · by_cases removes : ∃ b, ev = .signalled b c (some t)
      · obtain ⟨b, rfl⟩ := removes
        exact .inr ⟨b, (.head _)⟩
      · left
        simp only [cons_append, stage, still]
        -- No other event that may come next concerns a linked thread.
        cases ev with
        | linked u c' l' =>
          have away : u ≠ t := by rintro rfl; cases allowed.symm.trans still
          simp [Stage.after, away]
        | signalled b c' removed =>
          cases removed with
          | none => rfl
          | some u =>
            have away : u ≠ t := by
              rintro rfl
              obtain ⟨l', linked'⟩ := allowed
              cases linked'.symm.trans still
              exact removes ⟨b, rfl⟩
            simp [Stage.after, away]
        | upped b u => simp [Stage.after]
        | passed u => simp [Stage.after]
        | swept c' => rfl
        | returned u =>
          have away : u ≠ t := by
            rintro rfl
            rcases allowed with out | ⟨l', passed⟩
            · cases out.symm.trans still
            · cases passed.symm.trans still
          simp [Stage.after, away]
    · exact .inr ⟨b, .tail _ mem⟩

namespace Kernel

/-- `cond_signal` after a sort that left the waiters in this order. -/
def signalFirst (k : Kernel) (c : CondPtr) (l : LockPtr) (order : List ThreadPtr) : Option Kernel :=
  if k.holder l = some k.current then
    match order with
    | [] => some k
    | e :: rest =>
      some ({ k with condWaiters := Function.update k.condWaiters c rest }.push
        [.semaUp (.ofWaiter e)])
  else none

theorem execInstr_condSignal (k : Kernel) (c : CondPtr) (l : LockPtr) (stray : ThreadPtr → Int) :
    k.execInstr (.condSignal c l stray) = k.signalFirst c l (k.condSort stray (k.condWaiters c)) :=
  rfl

theorem condSort_setStack (k : Kernel) (t : ThreadPtr) (code : List Instr) (stray : ThreadPtr → Int)
    (l : List ThreadPtr) : (k.setStack t code).condSort stray l = k.condSort stray l := by
  have eq : (k.setStack t code).condPriority stray = k.condPriority stray := by
    funext e
    simp only [condPriority, setStack, modify_sema]
    split <;> simp
  simp only [condSort, eq]

def stepSorted (k : Kernel) : SortEvent → Option Kernel
  | .event e => k.step e
  | .signal order =>
    match (k.thread k.current).stack with
    | .condSignal c l _ :: rest =>
      if order.Perm (k.condWaiters c) then (k.setStack k.current rest).signalFirst c l order
      else none
    | _ => none

/-- What the running thread does to a condition. -/
def condActs (k : Kernel) : SortEvent → List CondEvent
  | .event .exec =>
    match (k.thread k.current).stack with
    | .condWait c l :: _ => [.linked k.current c l]
    | .condSignal c _ stray :: _ =>
      [.signalled k.current c (k.condSort stray (k.condWaiters c)).head?]
    | .condBroadcast c _ _ :: _ => if k.condWaiters c = [] then [.swept c] else []
    | .semaUp (.ofWaiter t) :: _ => [.upped k.current t]
    | .semaDown (.ofWaiter t) _ :: _ =>
      if (k.sema (.ofWaiter t)).value = 0 then [] else [.passed t]
    | _ => []
  | .signal order =>
    match (k.thread k.current).stack with
    | .condSignal c _ _ :: _ => [.signalled k.current c order.head?]
    | _ => []
  | _ => []

/-- The running thread is back in its own code. -/
def condReturns (k : Kernel) (e : SortEvent) : List CondEvent :=
  if k.inThreadCode then []
  else (k.stepSorted e).elim [] fun k' =>
    if (k'.thread k.current).stack.isEmpty then [.returned k.current] else []

def condEvents (k : Kernel) (e : SortEvent) : List CondEvent := k.condReturns e ++ k.condActs e

end Kernel

/-! ### The code of a waiter -/

/-- Instructions of `lock_release`, which a waiter has to run before its `sema_down`. -/
@[simp] def Instr.releases : Instr → Bool
  | .resume _ | .lockRelease _ | .clearHolder _ | .removeDonations _ | .removeDonation ..
  | .updatePriority | .maxDonation .. | .semaUp (.ofLock _) | .checkFront | .threadYield => true
  | _ => false

/-- Instructions of `lock_acquire` that come before another of them. -/
@[simp] def Instr.acquires : Instr → Bool
  | .resume _ | .setWaiting _ | .pushDonation _ | .donatePriority | .clearWaiting => true
  | _ => false

/-- The last instruction a thread has left of `lock_acquire`. -/
@[simp] def Instr.reacquires (l : LockPtr) : Instr → Bool
  | .lockAcquire l' | .semaDown (.ofLock l') _ | .setHolder l' => l' == l
  | _ => false

/-- The only instructions that name a private semaphore. -/
@[simp] def Instr.personal : Instr → Bool
  | .semaDown (.ofWaiter _) _ => true
  | _ => false

/-- The code of a thread that has not passed its private semaphore. -/
def Waiting (t : ThreadPtr) (l : LockPtr) (code : List Instr) : Prop :=
  ∃ pre r, code = pre ++ [.semaDown (.ofWaiter t) r, .lockAcquire l] ∧
    ∀ i ∈ pre, i.releases = true

/-- The code of a thread that takes the lock again, to the end. -/
def Reacquiring (l : LockPtr) (code : List Instr) : Prop :=
  code = [] ∨ ∃ pre j, code = pre ++ [j] ∧ j.reacquires l = true ∧ ∀ i ∈ pre, i.acquires = true

def Shape (t : ThreadPtr) : Stage → List Instr → Prop
  | .out, code => ∀ i ∈ code, i.personal = false
  | .linked _ l, code | .removed l _, code | .upped l, code => Waiting t l code
  | .passed l, code => Reacquiring l code

/-- The pending ups of the private semaphore of `t`. -/
@[simp] def Instr.signals (t : ThreadPtr) : Instr → Bool
  | .semaUp (.ofWaiter u) => u == t
  | _ => false

theorem Emits.releases (he : Emits i new)
    (releases : i.releases = true) : ∀ j ∈ new, j.releases = true := by
  cases he <;> simp_all

theorem Emits.acquires (he : Emits i new) (acquires : i.acquires = true) : new = [] := by
  cases he <;> simp_all

/-- Only `cond_wait` comes with a `sema_down` of a private semaphore. -/
theorem Emits.personal (he : Emits i new)
    (ne : ∀ c l, i ≠ .condWait c l) (out : i.personal = false) : ∀ j ∈ new, j.personal = false := by
  cases he with
  | downTakes s r => cases s <;> simp [afterDown]
  | tryTakes s => cases s <;> simp [afterTryDown]
  | downWaits s r => cases s <;> simp_all
  | condWait c l => exact absurd rfl (ne c l)
  | _ => simp

/-- Only `cond_signal` comes with an up of a private semaphore. -/
theorem Emits.signals (he : Emits i new)
    (ne : ∀ c l stray, i ≠ .condSignal c l stray) : new.filter (Instr.signals t) = [] := by
  cases he with
  | downTakes s r => cases s <;> simp [afterDown]
  | tryTakes s => cases s <;> simp [afterTryDown]
  | signalOne c l stray => exact absurd rfl (ne c l stray)
  | _ => simp

/-- A waiter runs on through `lock_release` to its `sema_down`. -/
theorem Waiting.exec (waiting : Waiting t l (i :: rest)) (he : Emits i new) :
    i.releases = true ∧ Waiting t l (new ++ rest) ∨
      ∃ r, i = .semaDown (.ofWaiter t) r ∧ rest = [.lockAcquire l] := by
  obtain ⟨pre, r, code, releases⟩ := waiting
  cases pre with
  | nil =>
    obtain ⟨first, last⟩ := cons.inj code
    exact .inr ⟨r, first, last⟩
  | cons a pre =>
    obtain ⟨rfl, rfl⟩ := cons.inj code
    have first := releases i (.head _)
    refine .inl ⟨first, new ++ pre, r, by simp, fun j hj => ?_⟩
    rcases mem_append.mp hj with hj | hj
    · exact he.releases first j hj
    · exact releases j (.tail _ hj)

theorem Reacquiring.exec (again : Reacquiring l (i :: rest)) (he : Emits i new) :
    (i.acquires = true ∨ i.reacquires l = true) ∧ Reacquiring l (new ++ rest) := by
  rcases again with none | ⟨pre, j, code, last, acquires⟩
  · cases none
  cases pre with
  | nil =>
    obtain ⟨rfl, rfl⟩ := cons.inj code
    refine ⟨.inr last, ?_⟩
    rw [append_nil]
    cases he with
    | acquireDonates l' =>
      exact .inr ⟨[.setWaiting l', .pushDonation l', .donatePriority], _, rfl, last, by simp⟩
    | acquireDirect l' => exact .inr ⟨[], _, rfl, last, by simp⟩
    | downWaits s r =>
      cases s with
      | ofLock l' => exact .inr ⟨[], .semaDown (.ofLock l') true, rfl, last, by simp⟩
      | _ => simp at last
    | downTakes s r =>
      cases s with
      | ofLock l' => exact .inr ⟨[.clearWaiting], .setHolder l', rfl, last, by simp⟩
      | _ => simp at last
    | setHolder l' => exact .inl rfl
    | _ => simp at last
  | cons a pre =>
    obtain ⟨rfl, rfl⟩ := cons.inj code
    have first := acquires i (.head _)
    rw [he.acquires first]
    exact ⟨.inl first, .inr ⟨pre, j, rfl, last, fun j hj => acquires j (.tail _ hj)⟩⟩

/-- Instructions that make a difference to a waiter. -/
@[simp] def Instr.concerns : Instr → Bool
  | .condWait .. | .condSignal .. | .semaUp (.ofWaiter _) | .semaDown (.ofWaiter _) _
  | .semaTryDown (.ofWaiter _) => true
  | _ => false

/-- Whatever else a thread runs keeps it at its stage. -/
theorem Shape.exec
    (shape : Shape t st (i :: rest)) (emits : Emits i new) (ne : i.concerns = false) :
    Shape t st (new ++ rest) := by
  have hw : ∀ {l}, Waiting t l (i :: rest) → Waiting t l (new ++ rest) := by
    intro l waiting
    rcases waiting.exec emits with on | ⟨r, rfl, _⟩
    · exact on.2
    · simp at ne
  cases st with
  | out =>
    intro j hj
    rcases mem_append.mp hj with hj | hj
    · refine emits.personal ?_ (shape i (.head _)) j hj
      rintro c l rfl
      simp at ne
    · exact shape j (.tail _ hj)
  | passed l => exact (Reacquiring.exec shape emits).2
  | linked c l | removed l b | upped l => exact hw shape

/-- `cond_wait` is a call of its own, an up of a private semaphore comes right after
the removal, and nobody tries a private semaphore. -/
@[grind cases] structure Tame (code : List Instr) : Prop where
  alone : code.Pairwise fun i _ => ∀ c l, i ≠ .condWait c l
  next : code.Pairwise fun i j => ∀ t, j = .semaUp (.ofWaiter t) → ∃ w, i = .resume w
  untried : ∀ i ∈ code, ∀ t, i ≠ .semaTryDown (.ofWaiter t)

theorem Tame.emits (he : Emits i new) :
    Tame new ∧ (∀ c l, ∀ j ∈ new, j ≠ .condWait c l) ∧ ((∃ w, i = .resume w) → new = []) := by
  cases he with
  | downTakes s r => cases s <;> exact ⟨⟨by simp [afterDown], by simp [afterDown],
      by simp [afterDown]⟩, by simp [afterDown], by simp⟩
  | tryTakes s => cases s <;> exact ⟨⟨by simp [afterTryDown], by simp [afterTryDown],
      by simp [afterTryDown]⟩, by simp [afterTryDown], by simp⟩
  | _ => exact ⟨⟨by simp, by simp, by simp⟩, by simp, by simp⟩

theorem Tame.flows {code' : List Instr} (tame : Tame code) (flow : Flows code code') :
    Tame code' := by
  cases flow with
  | exec rest he =>
    obtain ⟨hi, links, resumes⟩ := Tame.emits he
    refine ⟨pairwise_replace tame.alone hi.alone fun a ha _ _ c l => links c l a ha,
      pairwise_replace tame.next hi.next fun a ha b above t eq => ?_, fun j hj => ?_⟩
    · rw [resumes (above t eq)] at ha
      cases ha
    · grind
  | call c =>
    cases c with
    | threadCreate p page => cases page <;> exact
        ⟨by simp [Call.code], by simp [Call.code], by simp [Call.code]⟩
    | _ => exact ⟨by simp [Call.code], by simp [Call.code], by simp [Call.code]⟩
  | stay => exact tame
  | preempt code =>
    refine ⟨pairwise_cons.mpr ⟨by simp, tame.alone⟩,
      pairwise_cons.mpr ⟨by simp, tame.next⟩, fun j hj => ?_⟩
    rcases mem_cons.mp hj with rfl | hj
    · simp
    · exact tame.untried j hj

theorem Call.code_personal (c : Call) : ∀ i ∈ c.code, i.personal = false := by
  cases c with
  | threadCreate p page => cases page <;> simp [Call.code]
  | _ => simp [Call.code]

theorem Shape.preempt {w : Wake}
    (shape : Shape t st code) (back : code = [] → st = .out) : Shape t st (.resume w :: code) := by
  have hw : ∀ {l}, Waiting t l code → Waiting t l (.resume w :: code) := by
    rintro l ⟨pre, r, rfl, releases⟩
    exact ⟨.resume w :: pre, r, rfl, by simpa using releases⟩
  cases st with
  | out => simpa [Shape] using shape
  | passed l =>
    rcases shape with none | ⟨pre, j, rfl, last, acquires⟩
    · cases back none
    · exact .inr ⟨.resume w :: pre, j, rfl, last, by simpa using acquires⟩
  | linked | removed | upped => exact hw shape

/-- A thread at its private semaphore has only the lock to take after it. -/
theorem Shape.at_down {r : Bool} (shape : Shape t st (.semaDown (.ofWaiter t) r :: rest)) :
    ∃ l, rest = [.lockAcquire l] ∧
      ((∃ c, st = .linked c l) ∨ (∃ b, st = .removed l b) ∨ st = .upped l) := by
  have last : ∀ {l}, Waiting t l (.semaDown (.ofWaiter t) r :: rest) → rest = [.lockAcquire l] := by
    intro l waiting
    rcases waiting.exec (.downWaits (.ofWaiter t) r) with ⟨releases, _⟩ | ⟨_, _, last⟩
    · simp at releases
    · exact last
  cases st with
  | out =>
    have personal := shape _ (.head _)
    simp at personal
  | passed l =>
    have again := (Reacquiring.exec shape (.downWaits (.ofWaiter t) r)).1
    simp at again
  | linked c l => exact ⟨l, last shape, .inl ⟨c, rfl⟩⟩
  | removed l b => exact ⟨l, last shape, .inr (.inl ⟨b, rfl⟩)⟩
  | upped l => exact ⟨l, last shape, .inr (.inr rfl)⟩

/-- A thread that links, signals or broadcasts is not in `cond_wait` already. -/
theorem Shape.out_of
    (shape : Shape t st (i :: rest)) (releases : i.releases = false) (acquires : i.acquires = false)
    (reacquires : ∀ l, i.reacquires l = false) (personal : i.personal = false) : st = .out := by
  have hw : ∀ {l}, ¬ Waiting t l (i :: rest) := by
    rintro l ⟨pre, r, code, all⟩
    cases pre with
    | nil => simp_all
    | cons a pre => grind
  cases st with
  | out => rfl
  | linked | removed | upped => exact absurd shape hw
  | passed l =>
    rcases shape with none | ⟨pre, j, code, last, all⟩
    · cases none
    cases pre with
    | nil => grind
    | cons a pre => grind

end Pintos.Threads
