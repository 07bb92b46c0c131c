import Pintos.Threads.Code

/-!
# Locks exclude

A lock on its own is a small automaton: free, taken by a thread that has not yet
written `holder`, held, about to be released, and released but for `sema_up`. Its
owner is the thread in the middle states. The kernel refines it: each step is, for
each lock, a move of the automaton or none, and the state of the automaton can be
read off the semaphore, `holder` and the code the threads have left.
-/

namespace Pintos.Threads

open List Option

/-- Who took the unit of a lock's semaphore and who gave it back. -/
inductive LockEvent where
  | acquired (t : ThreadPtr) (l : LockPtr)
  | released (t : ThreadPtr) (l : LockPtr)
  deriving DecidableEq

def LockEvent.lock : LockEvent → LockPtr
  | .acquired _ l | .released _ l => l

/-- The threads between an acquisition of `l` and the matching release, after the
events of a list with the newest first. -/
def owners (l : LockPtr) : List LockEvent → List ThreadPtr
  | [] => []
  | .acquired t l' :: seen => if l' = l then t :: owners l seen else owners l seen
  | .released t l' :: seen => if l' = l then (owners l seen).erase t else owners l seen

variable {events seen : List LockEvent} {i : Instr}

theorem owners_elsewhere {l : LockPtr}
    (elsewhere : ∀ e ∈ events, e.lock ≠ l) : owners l (events ++ seen) = owners l seen := by
  induction events with
  | nil => rfl
  | cons e events ih =>
    have rest := ih fun e' h => elsewhere e' (.tail _ h)
    have first := elsewhere e (.head _)
    cases e <;> simp_all [owners, LockEvent.lock]

inductive LockPhase where
  | free
  | taken (t : ThreadPtr)
  | held (t : ThreadPtr)
  | leaving (t : ThreadPtr)
  | cleared (t : ThreadPtr)

namespace LockPhase

def value : LockPhase → Nat
  | .free => 1
  | _ => 0

def holder : LockPhase → Option ThreadPtr
  | .held t | .leaving t => some t
  | _ => none

def owner : LockPhase → List ThreadPtr
  | .free => []
  | .taken t | .held t | .leaving t | .cleared t => [t]

/-- What thread `t` has left to do as the owner of lock `l`. -/
def code (l : LockPtr) (t : ThreadPtr) : LockPhase → List Instr
  | .taken u => if t = u then [.setHolder l] else []
  | .leaving u => if t = u then [.clearHolder l, .semaUp (.ofLock l)] else []
  | .cleared u => if t = u then [.semaUp (.ofLock l)] else []
  | _ => []

/-- The moves of a lock, with the event each of them is. -/
inductive Move (l : LockPtr) : LockPhase → List LockEvent → LockPhase → Prop where
  | stay (p : LockPhase) (events : List LockEvent) :
      (∀ e ∈ events, e.lock ≠ l) → Move l p events p
  | take (t : ThreadPtr) : Move l .free [.acquired t l] (.taken t)
  | publish (t : ThreadPtr) : Move l (.taken t) [] (.held t)
  | leave (t : ThreadPtr) : Move l (.held t) [] (.leaving t)
  | clear (t : ThreadPtr) : Move l (.leaving t) [] (.cleared t)
  | give (t : ThreadPtr) : Move l (.cleared t) [.released t l] .free

theorem Move.owners {l : LockPtr} {p p' : LockPhase} (move : Move l p events p')
    (was : owners l seen = p.owner) : Threads.owners l (events ++ seen) = p'.owner := by
  cases move with
  | stay _ _ elsewhere => rw [owners_elsewhere elsewhere, was]
  | take t => simp [Threads.owners, was, owner]
  | publish t | leave t | clear t => exact was
  | give t => simp [Threads.owners, was, owner]

end LockPhase

/-- Instructions that only the owner of a lock has left to run. -/
@[simp] def Instr.ownerOnly : Instr → Bool
  | .setHolder _ | .clearHolder _ | .semaUp (.ofLock _) => true
  | _ => false

/-- Those that belong to lock `l`. -/
@[simp] def Instr.owns (l : LockPtr) : Instr → Bool
  | .setHolder l' | .clearHolder l' | .semaUp (.ofLock l') => l' == l
  | _ => false

theorem Instr.ownerOnly_of_owns {l : LockPtr} (owns : i.owns l = true) : i.ownerOnly = true := by
  unfold Instr.owns at owns
  split at owns <;> simp_all

/-- Instructions inside `lock_acquire` and `lock_release`, where the owner may have
another of its instructions to come. -/
@[simp] def Instr.inner : Instr → Bool
  | .resume _ | .clearWaiting | .clearHolder _ | .removeDonations _ | .removeDonation ..
  | .updatePriority | .maxDonation .. => true
  | _ => false

/-- Above an instruction of an owner there are only instructions of the same operation. -/
def Nested (code : List Instr) : Prop :=
  code.Pairwise fun i j => j.ownerOnly = true → i.inner = true

namespace Nested

theorem emits {new : List Instr} (he : Emits i new) :
    Nested new ∧ (i.inner = true → ∀ j ∈ new, j.inner = true) := by
  cases he with
  | downTakes s r => cases s <;> simp [Nested, afterDown]
  | tryTakes s => cases s <;> simp [Nested, afterTryDown]
  | _ => simp [Nested]

theorem flows {code code' : List Instr} (nested : Nested code) (flow : Flows code code') :
    Nested code' := by
  cases flow with
  | exec rest he =>
    obtain ⟨hi, inner⟩ := Nested.emits he
    exact pairwise_replace nested hi fun a ha b above owns => inner (above owns) a ha
  | call c => cases c <;> simp [Nested, Call.code]; split <;> simp
  | stay => exact nested
  | preempt => exact pairwise_cons.mpr ⟨by simp, nested⟩

end Nested

/-- Instructions that write the semaphore or the holder of lock `l`. -/
@[simp] def Instr.touches (l : LockPtr) : Instr → Bool
  | .semaDown (.ofLock l') _ | .semaTryDown (.ofLock l') | .semaUp (.ofLock l')
  | .setHolder l' | .clearHolder l' => l' == l
  | _ => false

theorem Emits.apart {l : LockPtr} {new : List Instr} (he : Emits i new) (ne : i.touches l = false)
    (keeps : i ≠ .lockRelease l) : i.owns l = false ∧ new.filter (Instr.owns l) = [] := by
  cases he with
  | downTakes s r => cases s <;> simp_all [afterDown]
  | tryTakes s => cases s <;> simp_all [afterTryDown]
  | semaUp s => cases s <;> simp_all
  | _ => simp_all

namespace Kernel

/-- The value of a lock's semaphore, and its holder. -/
def lockState (k : Kernel) (l : LockPtr) : Nat × Option ThreadPtr :=
  ((k.sema (.ofLock l)).value, k.holder l)

section
variable {k k' : Kernel} {l : LockPtr}

theorem lockState_of_fixed (eq : k'.fixed = k.fixed) : k'.lockState l = k.lockState l := by
  simp only [fixed, Prod.mk.injEq] at eq
  simp only [lockState, eq]

theorem setSema_lockState {s : SemaPtr} {v : Semaphore} (ne : s ≠ .ofLock l) :
    (k.setSema s v).lockState l = k.lockState l := by
  simp [lockState, Function.update_of_ne ne.symm]

theorem execInstr_lockState (h : k.execInstr i = some k')
    (ha : i.touches l = false) : k'.lockState l = k.lockState l := by
  obtain ⟨k1, hw, eq⟩ := execInstr_writes h
  rw [lockState_of_fixed eq]
  cases hw with
  | down s | tryDown s | up s =>
    have ne : s ≠ .ofLock l := by rintro rfl; simp at ha
    exact setSema_lockState ne
  | setHolder l' | clearHolder l' =>
    have ne : l ≠ l' := by rintro rfl; simp at ha
    simp [lockState, ne]
  | wait => simp [lockState]
  | _ => rfl

theorem interrupt_lockState {i : Interrupt} (h : k.interrupt i = some k') :
    k'.lockState l = k.lockState l := by
  rcases interrupt_writes h with eq | ⟨n, v, eq⟩
  · exact lockState_of_fixed eq
  · exact (lockState_of_fixed eq).trans (setSema_lockState (by simp))

end

/-- The kernel's part in the automaton of lock `l`. -/
structure InPhase (k : Kernel) (l : LockPtr) (p : LockPhase) : Prop where
  state : k.lockState l = (p.value, p.holder)
  code : ∀ t, (k.thread t).stack.filter (Instr.owns l) = p.code l t

section
variable {k k' : Kernel} {l : LockPtr} {p : LockPhase}

/-- Steps that do nothing to lock `l` leave it in its phase. -/
theorem InPhase.apart (phase : InPhase k l p) (inv : Scheduled k) (code : List Instr)
    (state : k'.lockState l = k.lockState l) (hr : Recoded k k' code)
    (same : code.filter (Instr.owns l) = (k.thread k.current).stack.filter (Instr.owns l)) :
    InPhase k' l p := by
  refine ⟨state.trans phase.state, fun t => ?_⟩
  rw [← phase.code t]
  by_cases h : t = k.current
  · rw [h, hr.self, same]
  · rcases hr.others t h with eq | ⟨rfl, new⟩
    · rw [eq]
    · rw [new, (inv.tidy.unborn k.created (Nat.le_refl _)).2]; rfl

/-- The only thread with an instruction of an owner is the owner. -/
theorem InPhase.self {t : ThreadPtr} {rest : List Instr} (phase : InPhase k l p)
    (old : (k.thread t).stack = i :: rest) (owns : i.owns l = true) :
    i :: rest.filter (Instr.owns l) = p.code l t := by
  rw [← phase.code t, old, filter_cons_of_pos owns]

/-- Lock `l` gets a new state and the running thread new code for it. -/
theorem InPhase.moved {p' : LockPhase} (phase : InPhase k l p) (inv : Scheduled k)
    (code : List Instr) (hr : Recoded k k' code) (state : k'.lockState l = (p'.value, p'.holder))
    (self : code.filter (Instr.owns l) = p'.code l k.current)
    (others : ∀ t, t ≠ k.current → p.code l t = p'.code l t) : InPhase k' l p' := by
  refine ⟨state, fun t => ?_⟩
  by_cases h : t = k.current
  · rw [h, hr.self, self]
  · rw [← others t h, ← phase.code t]
    rcases hr.others t h with eq | ⟨rfl, new⟩
    · rw [eq]
    · rw [new, (inv.tidy.unborn k.created (Nat.le_refl _)).2]; rfl

end

/-- What an event is for the locks. -/
def lockEvents (k : Kernel) : Event → List LockEvent
  | .exec =>
    match (k.thread k.current).stack with
    | .semaDown (.ofLock l) _ :: _ =>
      if (k.sema (.ofLock l)).value = 0 then [] else [.acquired k.current l]
    | .semaTryDown (.ofLock l) :: _ =>
      if (k.sema (.ofLock l)).value > 0 then [.acquired k.current l] else []
    | .semaUp (.ofLock l) :: _ => [.released k.current l]
    | _ => []
  | _ => []

theorem lockEvents_elsewhere {k : Kernel} {l : LockPtr} {rest : List Instr}
    (old : k.Next i rest) (ne : i.touches l = false) : ∀ e ∈ k.lockEvents .exec, e.lock ≠ l := by
  unfold lockEvents
  rw [old]
  intro e he
  cases i with
  | semaDown s r => cases s <;> simp_all [LockEvent.lock]
  | semaTryDown s => cases s <;> simp_all [LockEvent.lock]
  | semaUp s => cases s <;> simp_all [LockEvent.lock]
  | _ => simp at he

section
variable {k k' : Kernel} {l : LockPtr} {p : LockPhase} {rest : List Instr}

section
variable (phase : InPhase k l p)
include phase

theorem InPhase.exec_apart (inv : Scheduled k) (old : k.Next i rest) (ne : i.touches l = false)
    (keeps : i ≠ .lockRelease l) (h : k.Does i rest k') : InPhase k' l p := by
  obtain ⟨new, he, hr⟩ := inv.emits h
  obtain ⟨foreign, none⟩ := he.apart ne keeps
  refine phase.apart inv _ ((execInstr_lockState h ne).trans rfl) hr ?_
  rw [old, filter_append, none, filter_cons_of_neg (Bool.eq_false_iff.mp foreign),
    nil_append]

/-- The unit is there for the taking only when the lock is free. -/
theorem InPhase.free_of_value (unit : (k.sema (.ofLock l)).value ≠ 0) : p = .free := by
  have value := (Prod.mk.inj phase.state).1
  cases p with
  | free => rfl
  | _ => exact absurd value unit

theorem InPhase.take {new : List Instr} (inv : Scheduled k) (old : k.Next i rest)
    (unit : (k.sema (.ofLock l)).value ≠ 0) (code : new.filter (Instr.owns l) = [.setHolder l])
    (eq : k' = ((k.setStack k.current rest).setSema (.ofLock l)
      { k.sema (.ofLock l) with value := (k.sema (.ofLock l)).value - 1 }).push new) :
    InPhase k' l (.taken k.current) := by
  obtain rfl := phase.free_of_value unit
  have state := phase.state
  have value : (k.sema (.ofLock l)).value = 1 := (Prod.mk.inj state).1
  have holder : k.holder l = none := (Prod.mk.inj state).2
  have none : rest.filter (Instr.owns l) = [] := by
    have all : (k.thread k.current).stack.filter (Instr.owns l) = [] := phase.code k.current
    rw [old] at all
    exact filter_eq_nil_iff.mpr fun j hj =>
      filter_eq_nil_iff.mp all j (.tail _ hj)
  subst eq
  refine phase.moved inv (new ++ rest) ⟨by simp, by simp +contextual⟩ ?_ ?_ ?_
  · simp [lockState, value, holder, LockPhase.value, LockPhase.holder]
  · simp [code, none, LockPhase.code]
  · intro t ne; simp [LockPhase.code, ne]

theorem InPhase.semaDown {r : Bool} (inv : Scheduled k)
    (old : k.Next (.semaDown (.ofLock l) r) rest)
    (h : (k.setStack k.current rest).semaDown (.ofLock l) = some k') : ∃ p', InPhase k' l p' ∧
    LockPhase.Move l p (k.lockEvents .exec) p' := by
  simp only [Kernel.semaDown] at h
  split_ifs at h with empty
  · have none : k.lockEvents .exec = [] := by
      have : (k.sema (.ofLock l)).value = 0 := empty
      simp [lockEvents, old, this]
    refine ⟨p, ?_, none ▸ .stay p [] (by simp)⟩
    refine phase.apart inv (.semaDown (.ofLock l) true :: rest) ?_ ?_ ?_
    · rw [lockState_of_fixed (schedule_fixed h)]; simp [lockState]
    · exact .of_schedule h (by simp) (by simp +contextual)
    · simp [old]
  · have unit : (k.sema (.ofLock l)).value ≠ 0 := empty
    have one : k.lockEvents .exec = [.acquired k.current l] := by simp [lockEvents, old, unit]
    obtain rfl := phase.free_of_value unit
    refine ⟨.taken k.current, ?_, one ▸ .take k.current⟩
    exact phase.take inv old unit (by simp [afterDown]) (some.inj h).symm

theorem InPhase.semaTryDown (inv : Scheduled k) (old : k.Next (.semaTryDown (.ofLock l)) rest)
    (h : (k.setStack k.current rest).semaTryDown (.ofLock l) = k') : ∃ p', InPhase k' l p' ∧
    LockPhase.Move l p (k.lockEvents .exec) p' := by
  simp only [Kernel.semaTryDown] at h
  split_ifs at h with unit
  · have unit : (k.sema (.ofLock l)).value > 0 := unit
    have one : k.lockEvents .exec = [.acquired k.current l] := by simp [lockEvents, old, unit]
    obtain rfl := phase.free_of_value (Nat.pos_iff_ne_zero.mp unit)
    refine ⟨.taken k.current, ?_, one ▸ .take k.current⟩
    exact phase.take inv old (Nat.pos_iff_ne_zero.mp unit) (by simp [afterTryDown]) h.symm
  · have unit : ¬ (k.sema (.ofLock l)).value > 0 := unit
    have none : k.lockEvents .exec = [] := by simp [lockEvents, old, unit]
    refine ⟨p, ?_, none ▸ .stay p [] (by simp)⟩
    subst h
    exact phase.apart inv rest rfl ⟨by simp, by simp +contextual⟩ (by simp [old])

/-- Only the thread that took the lock has `holder` to write. -/
theorem InPhase.taken_of_setHolder (old : k.Next (.setHolder l) rest) : p = .taken k.current ∧
    rest.filter (Instr.owns l) = [] := by
  have self := phase.self old (by simp)
  cases p with
  | taken t =>
    simp only [LockPhase.code] at self
    split_ifs at self with h
    exact ⟨by rw [h], by simpa using self⟩
  | leaving t | cleared t => simp only [LockPhase.code] at self; split_ifs at self; simp at self
  | free | held => simp [LockPhase.code] at self

theorem InPhase.leaving_of_clearHolder (old : k.Next (.clearHolder l) rest) : p = .leaving k.current
    ∧ rest.filter (Instr.owns l) = [.semaUp (.ofLock l)] := by
  have self := phase.self old (by simp)
  cases p with
  | leaving t =>
    simp only [LockPhase.code] at self
    split_ifs at self with h
    exact ⟨by rw [h], by simpa using self⟩
  | taken t | cleared t => simp only [LockPhase.code] at self; split_ifs at self; simp at self
  | free | held => simp [LockPhase.code] at self

theorem InPhase.setHolder (inv : Scheduled k) (old : k.Next (.setHolder l) rest)
    (h : (k.setStack k.current rest).setHolder l (some k.current) = k') : ∃ p', InPhase k' l p' ∧
    LockPhase.Move l p (k.lockEvents .exec) p' := by
  obtain ⟨rfl, code⟩ := phase.taken_of_setHolder old
  have none : k.lockEvents .exec = [] := by simp [lockEvents, old]
  rw [none]
  refine ⟨.held k.current, ?_, .publish _⟩
  have value := (Prod.mk.inj phase.state).1
  subst h
  refine phase.moved inv rest ⟨by simp, by simp +contextual⟩ ?_ ?_ ?_
  · simpa [lockState, LockPhase.value, LockPhase.holder] using value
  · simpa [LockPhase.code] using code
  · intro t ne; simp [LockPhase.code, ne]

theorem InPhase.clearHolder (inv : Scheduled k) (old : k.Next (.clearHolder l) rest)
    (h : (k.setStack k.current rest).setHolder l none = k') : ∃ p', InPhase k' l p' ∧ LockPhase.Move
    l p (k.lockEvents .exec) p' := by
  obtain ⟨rfl, code⟩ := phase.leaving_of_clearHolder old
  have none : k.lockEvents .exec = [] := by simp [lockEvents, old]
  rw [none]
  refine ⟨.cleared k.current, ?_, .clear _⟩
  have value := (Prod.mk.inj phase.state).1
  subst h
  refine phase.moved inv rest ⟨by simp, by simp +contextual⟩ ?_ ?_ ?_
  · simpa [lockState, LockPhase.value, LockPhase.holder] using value
  · simpa [LockPhase.code] using code
  · intro t ne; simp [LockPhase.code, ne]

/-- The unit goes back only when the owner has cleared `holder`. -/
theorem InPhase.cleared_of_semaUp (old : k.Next (.semaUp (.ofLock l)) rest) : p = .cleared k.current
    ∧ rest.filter (Instr.owns l) = [] := by
  have self := phase.self old (by simp)
  cases p with
  | cleared t =>
    simp only [LockPhase.code] at self
    split_ifs at self with h
    exact ⟨by rw [h], by simpa using self⟩
  | taken t | leaving t => simp only [LockPhase.code] at self; split_ifs at self; simp at self
  | free | held => simp [LockPhase.code] at self

theorem InPhase.semaUp {k1 : Kernel} (inv : Scheduled k) (old : k.Next (.semaUp (.ofLock l)) rest)
    (h : (k.setStack k.current rest).semaUp (.ofLock l) = some k1) : ∃ p', InPhase
    (k1.push [.checkFront]) l p' ∧ LockPhase.Move l p (k.lockEvents .exec) p' := by
  obtain ⟨rfl, clean⟩ := phase.cleared_of_semaUp old
  have one : k.lockEvents .exec = [.released k.current l] := by simp [lockEvents, old]
  refine ⟨.free, ?_, one ▸ .give k.current⟩
  obtain ⟨value, holder⟩ := Prod.mk.inj phase.state
  obtain ⟨waiters, eq⟩ := semaUp_fixed h
  have hp : k1.current = k.current := (semaUp_current h).trans rfl
  have stack := semaUp_stack h
  refine phase.moved inv (.checkFront :: rest)
    ⟨by simp [hp, stack], by simp +contextual [hp, stack]⟩ ?_ ?_ ?_
  · have state : k1.lockState l = (0 + 1, none) := by
      rw [lockState_of_fixed eq]
      simp only [lockState, setSema_sema, setSema_holder, Function.update_self]
      exact Prod.ext (congrArg (fun n => unsigned (n + 1)) value) holder
    exact state
  · simpa [LockPhase.code] using clean
  · intro t ne; simp [LockPhase.code, ne]

theorem InPhase.lockRelease (inv : Scheduled k) (nested : Nested (k.thread k.current).stack)
    (old : k.Next (.lockRelease l) rest) (h : k.Does (.lockRelease l) rest k') : ∃ p', InPhase k' l
    p' ∧ LockPhase.Move l p (k.lockEvents .exec) p' := by
  have nothing : k.lockEvents .exec = [] := by simp [lockEvents, old]
  rw [nothing]
  -- The thread is not inside another operation of an owner.
  have none : rest.filter (Instr.owns l) = [] := by
    rw [old] at nested
    refine filter_eq_nil_iff.mpr fun j hj owns => ?_
    have := (pairwise_cons.mp nested).1 j hj (Instr.ownerOnly_of_owns owns)
    simp at this
  have own : k.holder l = some k.current := by
    simp only [Does, execInstr] at h
    split_ifs at h <;> assumption
  obtain ⟨value, holder⟩ := Prod.mk.inj phase.state
  have code : rest.filter (Instr.owns l) = p.code l k.current := by
    rw [← phase.code, old, filter_cons_of_neg (by simp)]
  obtain ⟨new, he, hr⟩ := inv.emits h
  have state := (execInstr_lockState (l := l) h (by simp)).trans (rfl : _ = k.lockState l)
  cases p with
  | held t =>
    obtain rfl := some.inj (own.symm.trans holder)
    refine ⟨.leaving k.current, ?_, .leave _⟩
    refine phase.moved inv _ hr (state.trans phase.state) ?_ ?_
    · cases he <;> simpa [LockPhase.code] using none
    · intro t ne; simp [LockPhase.code, ne]
  | leaving t =>
    obtain rfl := some.inj (own.symm.trans holder)
    rw [none] at code
    simp [LockPhase.code] at code
  | free | taken | cleared => cases own.symm.trans holder

theorem InPhase.exec (inv : Scheduled k)
    (nested : Nested (k.thread k.current).stack) (h : k.exec = some k') :
    ∃ p', InPhase k' l p' ∧ LockPhase.Move l p (k.lockEvents .exec) p' := by
  obtain ⟨i, rest, old, h⟩ := exec_eq h
  by_cases release : i = .lockRelease l
  · subst release; exact phase.lockRelease inv nested old h
  · by_cases ne : i.touches l = false
    · exact ⟨p, phase.exec_apart inv old ne release h,
        .stay p _ (lockEvents_elsewhere old ne)⟩
    · unfold Instr.touches at ne
      split at ne
      all_goals try exact absurd rfl ne
      all_goals
        obtain rfl := eq_of_beq (Bool.not_eq_false _ ▸ ne)
      · exact phase.semaDown inv old h
      · exact phase.semaTryDown inv old (some.inj h)
      · obtain ⟨k1, up, rfl⟩ := map_eq_some_iff.mp h
        exact phase.semaUp inv old up
      · exact phase.setHolder inv old (some.inj h)
      · exact phase.clearHolder inv old (some.inj h)

/-- Every step of the kernel is a move of every lock. -/
theorem InPhase.step {e : Event} (inv : Scheduled k) (nested : Nested (k.thread k.current).stack)
    (h : k.step e = some k') : ∃ p', InPhase k' l p' ∧ LockPhase.Move l p (k.lockEvents e) p' := by
  cases e with
  | call c =>
    simp only [Kernel.step] at h
    split_ifs at h with free
    have empty := stack_eq_nil free
    have code : c.code.filter (Instr.owns l) = [] := by
      cases c <;> simp [Call.code]
    cases h
    refine ⟨p, phase.apart inv c.code rfl ?_ (by rw [code, empty]; rfl),
      .stay p [] (by simp)⟩
    exact ⟨by simp [empty], by simp +contextual⟩
  | exec => exact phase.exec inv nested h
  | interrupt i =>
    simp only [Kernel.step] at h
    split_ifs at h
    refine ⟨p, ?_, .stay p [] (by simp)⟩
    rcases interrupt_recoded h with stays | yields
    · exact phase.apart inv _ (interrupt_lockState h) stays rfl
    · exact phase.apart inv _ (interrupt_lockState h) yields (by simp)

end

end

theorem inPhase_boot (mlfqs : Bool) (value : Nat → Nat) (l : LockPtr) :
    InPhase (boot mlfqs value) l .free := by
  refine ⟨rfl, ?_⟩
  refine boot_cases mlfqs value
    (P := fun _ th => th.stack.filter (Instr.owns l) = []) ?_ ?_ ?_ <;> simp

theorem nested_boot (mlfqs : Bool) (value : Nat → Nat) (t : ThreadPtr) :
    Nested ((boot mlfqs value).thread t).stack := by
  refine boot_cases mlfqs value (P := fun _ th => Nested th.stack) ?_ ?_ ?_ t <;> simp [Nested]

/-- The threads between taking lock `l` and giving it back, after a run. -/
def lockOwners (mlfqs : Bool) (value : Nat → Nat) (history : List Event) (l : LockPtr) :
    List ThreadPtr :=
  owners l (Machine.log step lockEvents (boot mlfqs value) history)

/-- At most one thread is between taking a lock and giving it back, whatever the
threads do and whenever they are interrupted. The thread that gives the unit back
is the one that took it. -/
theorem lock_exclusion {mlfqs : Bool} {value : Nat → Nat} {history : List Event} {k : Kernel}
    (run : Machine.Run step Machine.Free (boot mlfqs value) history k) (l : LockPtr) :
    (lockOwners mlfqs value history l).length ≤ 1 ∧
    (k.sema (.ofLock l)).value ≤ 1 ∧
    ((k.sema (.ofLock l)).value = 1 → lockOwners mlfqs value history l = []) ∧
    (∀ t, k.holder l = some t → lockOwners mlfqs value history l = [t]) ∧
    (∀ rest, (k.thread k.current).stack = .semaUp (.ofLock l) :: rest →
      lockOwners mlfqs value history l = [k.current]) := by
  have hr : Scheduled k ∧ (∀ t, Nested (k.thread t).stack) ∧ ∃ p, InPhase k l p ∧
      lockOwners mlfqs value history l = p.owner := by
    refine run.log_invariant (I := fun seen k => Scheduled k ∧ (∀ t, Nested (k.thread t).stack) ∧
      ∃ p, InPhase k l p ∧ owners l seen = p.owner) ?_ ?_
    · exact ⟨scheduled_boot mlfqs value, nested_boot mlfqs value, .free, inPhase_boot mlfqs value l,
        rfl⟩
    · rintro seen k e k' ⟨inv, nested, p, phase, own⟩ _ h
      obtain ⟨p', phase', move⟩ := phase.step inv (nested _) h
      refine ⟨inv.step h, ?_, p', phase', move.owners own⟩
      exact Flows.invariant inv (fun _ _ => Nested.flows) (by simp [Nested]) nested h
  obtain ⟨_, _, p, phase, own⟩ := hr
  obtain ⟨value, holder⟩ := Prod.mk.inj phase.state
  rw [own, value, holder]
  refine ⟨?_, ?_, ?_, ?_, ?_⟩
  · cases p <;> simp [LockPhase.owner]
  · cases p <;> simp [LockPhase.value]
  · cases p <;> simp [LockPhase.value, LockPhase.owner]
  · cases p <;> simp [LockPhase.holder, LockPhase.owner]
  · intro rest old
    rw [(phase.cleared_of_semaUp old).1]; rfl

/-- A thread blocks on a lock, the holder releases it, and takes it again before the
woken thread runs. -/
def barging : List Event :=
  replicate 7 .exec ++ .call (.threadCreate 31 true) :: replicate 17 .exec ++
  .call (.lockAcquire 1) :: replicate 4 .exec ++ .call .threadYield :: replicate 2 .exec ++
  .call (.lockAcquire 1) :: replicate 6 .exec ++
  .call (.lockRelease 1) :: replicate 9 .exec ++ .call (.lockAcquire 1) :: replicate 4 .exec

theorem lock_exclusion_barging :
    ∃ k, Machine.runs step Machine.Free (boot false fun _ => 0) barging = some k ∧
      k.holder 1 = some mainThread ∧ (k.thread 2).status = .ready ∧
      lockOwners false (fun _ => 0) barging.reverse 1 = [mainThread] := by
  have state : (Machine.runs step Machine.Free (boot false fun _ => 0) barging).map
      (fun k => (k.holder 1, (k.thread 2).status)) = some (some mainThread, .ready) := by
    decide +kernel
  obtain ⟨k, hr, seen⟩ := map_eq_some_iff.mp state
  obtain ⟨holder, status⟩ := Prod.mk.inj seen
  have exclusion := lock_exclusion (Machine.runs_run hr) 1
  exact ⟨k, hr, holder, status, exclusion.2.2.2.1 _ holder⟩

end Kernel

end Pintos.Threads
