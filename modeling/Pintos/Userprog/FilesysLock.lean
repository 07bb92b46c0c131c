import Pintos.Lib.Machine

/-!
# The lock of the file system

Where processes call the functions of the file system, and where they have `filesys_lock`: in the
arms of `syscall_handler`, in `load` and in `process_exit`. Which call a thread makes next is left
open as far as the source decides it by data. A thread may lose the processor everywhere, and inside
of a function for as long as the disk takes.
-/

namespace Pintos.Userprog.FilesysLock

open Machine Function

/-- The arms of `syscall_handler` that use the file system. -/
inductive Arm where
  | sysOpen
  | sysClose
  | sysCreate
  | sysRemove
  | sysRead
  | sysWrite
  | sysFilesize
  | sysSeek
  | sysTell
  deriving DecidableEq

/-- The calls in `load`, `validate_segment` and `load_segment`, in the order of the source. -/
inductive LoadSite where
  | openProgram
  | readHeader
  | headerLength
  | headerSeek
  | headerRead
  | validateLength
  | segmentSeek
  | pageRead
  | denyWrite
  | close
  deriving DecidableEq

namespace LoadSite

/-- Where the loop over the headers goes on or ends, with the stack set up or not. -/
def nextHeader : List LoadSite := [headerLength, denyWrite, close]

/-- The calls that may come next; none where `load` returns. -/
def next : LoadSite → List LoadSite
  | openProgram => [readHeader, close]
  | readHeader => nextHeader
  | headerLength => [headerSeek, close]
  | headerSeek => [headerRead]
  | headerRead => validateLength :: nextHeader
  | validateLength => [segmentSeek, close]
  | segmentSeek => [pageRead, close]
  | pageRead => pageRead :: nextHeader
  | denyWrite => []
  | close => []

end LoadSite

/-- The calls in `process_exit`: in the loop over the descriptors and behind it. -/
inductive ExitSite where
  | closeFd
  | closeExec
  deriving DecidableEq

inductive Site where
  | arm (a : Arm)
  | load (l : LoadSite)
  | exit (x : ExitSite)
  deriving DecidableEq

abbrev ThreadPtr := Nat

/-- Where a thread is. `before` is behind `lock_acquire`, in an arm. -/
inductive Pc where
  | absent
  | user
  | acquire (a : Arm)
  | before (site : Site)
  | inside (site : Site)
  | release (a : Arm)
  | executes (child : ThreadPtr)
  | starting
  | exiting
  | dead
  deriving DecidableEq

structure System where
  filesysLock : Option ThreadPtr := none
  pc : ThreadPtr → Pc

inductive LockEvent where
  | syscall (t : ThreadPtr) (a : Arm)
  /-- `process_execute`, up to `sema_down (&aux.load_sema)`. -/
  | execute (t child : ThreadPtr)
  /-- `thread_exit`, by a system call or a fault. -/
  | exit (t : ThreadPtr)
  | lockAcquire (t : ThreadPtr)
  | lockRelease (t : ThreadPtr)
  | call (t : ThreadPtr)
  /-- The function returns, and the thread goes on to its next call, if there is one. -/
  | returns (t : ThreadPtr) (next : Option Site)
  /-- `load` or `process_exit` comes to its first call, if there is one. -/
  | begins (t : ThreadPtr) (first : Option Site)
  deriving DecidableEq

namespace System

variable (s : System) (t : ThreadPtr)

def goto (pc : Pc) : System := { s with pc := update s.pc t pc }

/-- `sema_up (&aux->load_sema)`: whoever waits for `t` goes on. -/
def loaded : System :=
  { s with pc := fun u => if s.pc u = .executes t then .user else s.pc u }

/-- A call returns; where `load` is done, `start_process` goes on to the program or to its end. -/
def returns (site : Site) (next : Option Site) : Option System :=
  match site, next with
  | .arm a, none => some (s.goto t (.release a))
  | .load l, some (.load l') => if l' ∈ l.next then some (s.goto t (.before (.load l'))) else none
  | .load .denyWrite, none => some ((s.goto t .user).loaded t)
  | .load .close, none => some ((s.goto t .exiting).loaded t)
  | .exit .closeFd, some (.exit x) => some (s.goto t (.before (.exit x)))
  | .exit _, none => some (s.goto t .dead)
  | _, _ => none

/-- `load` opens the program, unless there is no memory for it. -/
def begins (first : Option Site) : Option System :=
  match s.pc t, first with
  | .starting, some (.load .openProgram) => some (s.goto t (.before (.load .openProgram)))
  | .starting, some (.load .close) => some (s.goto t (.before (.load .close)))
  | .exiting, some (.exit x) => some (s.goto t (.before (.exit x)))
  | .exiting, none => some (s.goto t .dead)
  | _, _ => none

def step (s : System) : LockEvent → Option System
  | .syscall t a => if s.pc t = .user then some (s.goto t (.acquire a)) else none
  | .execute t child =>
    if s.pc t = .user ∧ s.pc child = .absent then some
      ((s.goto child .starting).goto t (.executes child))
    else none
  | .exit t => if s.pc t = .user then some (s.goto t .exiting) else none
  | .lockAcquire t =>
    match s.pc t with
    | .acquire a =>
      if s.filesysLock = none then some { s.goto t (.before (.arm a)) with filesysLock := some t }
        else none
    | _ => none
  | .lockRelease t =>
    match s.pc t with
    | .release _ =>
      if s.filesysLock = some t then some { s.goto t .user with filesysLock := none } else none
    | _ => none
  | .call t =>
    match s.pc t with
    | .before site => some (s.goto t (.inside site))
    | _ => none
  | .returns t next =>
    match s.pc t with
    | .inside site => s.returns t site next
    | _ => none
  | .begins t first => s.begins t first

end System

/-- One thread that may execute programs. -/
def boot : System := { pc := fun t => if t = 0 then .user else .absent }

/-! ### Sections -/

/-- The calls of a thread are made with the lock in an arm of `syscall_handler`, and without it in
`load` and `process_exit`. -/
inductive Section where
  | locked
  | unlocked
  deriving DecidableEq

def Site.kind : Site → Section
  | .arm _ => .locked
  | .load _ | .exit _ => .unlocked

/-- The section a thread is in: between two calls it is in it still. -/
def Pc.within : Pc → Option Section
  | .before site | .inside site => some site.kind
  | .release _ => some .locked
  | _ => none

def System.within (s : System) : ThreadPtr → Option Section := Pc.within ∘ s.pc

def LockEvent.thread : LockEvent → ThreadPtr
  | .syscall t _ | .execute t _ | .exit t | .lockAcquire t | .lockRelease t | .call t | .returns t _
  | .begins t _ => t

/-- An arm gets the lock while nobody is in `load` or `process_exit`, and these come to their first
call while nobody is in a section. -/
def LockEvent.admits : LockEvent → Option Section → Bool
  | .lockAcquire _, other => other != some .unlocked
  | .begins _ (some _), other => other.isNone
  | _, _ => true

/-- A step of one of `n` threads, with `load` and `process_exit` kept apart from other sections. -/
def Apart (n : Nat) (s : System) (e : LockEvent) : Prop :=
  e.thread < n ∧ ∀ u < n, e.admits (s.within u) = true

instance (n : Nat) (s : System) : DecidablePred (Apart n s) := fun _ =>
  inferInstanceAs (Decidable (_ ∧ _))

variable {s s' : System} {t : ThreadPtr} {e : LockEvent}

theorem within_goto {new : Pc} : (s.goto t new).within = update s.within t new.within :=
  comp_update ..

theorem within_goto_same {new : Pc} (same : new.within = (s.pc t).within) :
    (s.goto t new).within = s.within := by
  rw [within_goto, same]
  exact update_eq_self t s.within

theorem within_loaded : (s.loaded t).within = s.within := by
  funext u
  simp only [System.within, System.loaded, comp_apply]
  split
  · rename_i h
    rw [h]
    rfl
  · rfl

/-- What a step does to the lock and the sections. -/
inductive Turned (s : System) : LockEvent → System → Prop
  | stays {e : LockEvent} {s' : System} (lock : s'.filesysLock = s.filesysLock)
      (same : s'.within = s.within) : Turned s e s'
  | acquires {t : ThreadPtr} {s' : System} (free : s.filesysLock = none)
      (lock : s'.filesysLock = some t) (new : s'.within = update s.within t (some .locked)) :
      Turned s (.lockAcquire t) s'
  | releases {t : ThreadPtr} {s' : System} (held : s.filesysLock = some t)
      (lock : s'.filesysLock = none) (new : s'.within = update s.within t none) :
      Turned s (.lockRelease t) s'
  | begins {t : ThreadPtr} {first : Site} {s' : System} (lock : s'.filesysLock = s.filesysLock)
      (new : s'.within = update s.within t (some .unlocked)) : Turned s (.begins t (some first)) s'
  | ends {t : ThreadPtr} {next : Option Site} {s' : System} (inside : s.within t = some .unlocked)
      (lock : s'.filesysLock = s.filesysLock) (new : s'.within = update s.within t none) :
      Turned s (.returns t next) s'

theorem Turned.goto {new : Pc} (same : new.within = (s.pc t).within) : Turned s e (s.goto t new) :=
  .stays rfl (within_goto_same same)

theorem turned_returns {site : Site} {next : Option Site} (h : s.pc t = .inside site)
    (returned : s.returns t site next = some s') : Turned s (.returns t next) s' := by
  have here : s.within t = some site.kind := by simp [System.within, h, Pc.within]
  unfold System.returns at returned
  split at returned
  · cases returned
    exact .goto (by rw [h]; rfl)
  · split_ifs at returned
    cases returned
    exact .goto (by rw [h]; rfl)
  · cases returned
    exact .ends here rfl (by rw [within_loaded, within_goto]; rfl)
  · cases returned
    exact .ends here rfl (by rw [within_loaded, within_goto]; rfl)
  · cases returned
    exact .goto (by rw [h]; rfl)
  · cases returned
    exact .ends here rfl within_goto
  · cases returned

theorem turned_begins {first : Option Site} (begun : s.begins t first = some s') :
    Turned s (.begins t first) s' := by
  unfold System.begins at begun
  split at begun
  · cases begun
    exact .begins rfl within_goto
  · cases begun
    exact .begins rfl within_goto
  · cases begun
    exact .begins rfl within_goto
  · rename_i h
    cases begun
    exact .goto (by rw [h]; rfl)
  · cases begun

theorem step_turned (ran : s.step e = some s') : Turned s e s' := by
  cases e with
  | syscall t a | exit t =>
    simp only [System.step] at ran
    split_ifs at ran with h
    cases ran
    exact .goto (by rw [h]; rfl)
  | execute t child =>
    simp only [System.step] at ran
    split_ifs at ran with h
    cases ran
    have started : (s.goto child .starting).within = s.within := within_goto_same (by rw [h.2]; rfl)
    refine .stays rfl ?_
    rw [within_goto, started]
    exact update_eq_self_iff.mpr (by simp [System.within, h.1, Pc.within])
  | lockAcquire t =>
    simp only [System.step] at ran
    split at ran
    · split_ifs at ran with free
      cases ran
      exact .acquires free rfl within_goto
    · cases ran
  | lockRelease t =>
    simp only [System.step] at ran
    split at ran
    · split_ifs at ran with held
      cases ran
      exact .releases held rfl within_goto
    · cases ran
  | call t =>
    simp only [System.step] at ran
    split at ran
    · rename_i site h
      cases ran
      exact .goto (by rw [h]; rfl)
    · cases ran
  | returns t next =>
    simp only [System.step] at ran
    split at ran
    · rename_i site h
      exact turned_returns h ran
    · cases ran
  | begins t first => exact turned_begins ran

/-! ### Exclusion -/

/-- Of `n` threads the one with the lock is in a locked section, and one in an unlocked section is
the only one in any. -/
structure Exclusive (n : Nat) (s : System) : Prop where
  beyond : ∀ u, n ≤ u → s.within u = none
  holder : ∀ u, s.filesysLock = some u ↔ s.within u = some .locked
  alone : ∀ u v, s.within u = some .unlocked → s.within v ≠ none → v = u

theorem Exclusive.step {n : Nat} (exclusive : Exclusive n s) (ok : Apart n s e)
    (ran : s.step e = some s') : Exclusive n s' := by
  obtain ⟨lt, admits⟩ := ok
  obtain ⟨beyond, holder, alone⟩ := exclusive
  have others : ∀ x u, n ≤ u → update s.within e.thread x u = none := fun x u le => by
    rw [update_of_ne (Nat.ne_of_gt (Nat.lt_of_lt_of_le lt le)), beyond u le]
  cases step_turned ran with
  | stays lock same =>
    constructor
    · rwa [same]
    · rwa [lock, same]
    · rwa [same]
  | @acquires t _ free lock new =>
    -- nobody is in a section
    have outside : ∀ u, s.within u ≠ some .unlocked := fun u is => by
      by_cases bound : u < n
      · simpa [LockEvent.admits, is] using admits u bound
      · simp [beyond u (Nat.le_of_not_lt bound)] at is
    have unlocked : ∀ u, s.within u ≠ some .locked := fun u is => by
      simpa [free] using (holder u).mpr is
    refine ⟨fun u le => new ▸ others _ u le, fun u => ?_, fun u v => ?_⟩
    · rw [lock, new, update_apply]
      grind
    · rw [new, update_apply]
      grind
  | releases held lock new =>
    refine ⟨fun u le => new ▸ others _ u le, fun u => ?_, fun u v => ?_⟩
    · rw [lock, new, update_apply]
      grind
    · rw [new, update_apply, update_apply]
      grind
  | begins lock new =>
    have outside : ∀ u, s.within u = none := fun u => by
      by_cases bound : u < n
      · simpa [LockEvent.admits] using admits u bound
      · exact beyond u (Nat.le_of_not_lt bound)
    refine ⟨fun u le => new ▸ others _ u le, fun u => ?_, fun u v => ?_⟩
    · rw [lock, new, update_apply, holder u]
      grind
    · rw [new, update_apply, update_apply]
      grind
  | ends inside lock new =>
    refine ⟨fun u le => new ▸ others _ u le, fun u => ?_, fun u v => ?_⟩
    · rw [lock, new, update_apply, holder u]
      grind
    · rw [new, update_apply, update_apply]
      grind

/-- `t` executes `child`, whose image has no headers. -/
def executes (t child : ThreadPtr) : List LockEvent :=
  [.execute t child, .begins child (some (.load .openProgram)), .call child,
    .returns child (some (.load .readHeader)), .call child, .returns child
      (some (.load .denyWrite)),
    .call child, .returns child none]

/-- A process creates a file and is inside of `filesys_create`. -/
def creates (t : ThreadPtr) : List LockEvent := [.syscall t .sysCreate, .lockAcquire t, .call t]

end Pintos.Userprog.FilesysLock
