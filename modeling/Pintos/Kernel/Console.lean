import Pintos.Lib.Machine

/-!
# The console lock

`acquire_console` and `release_console` of `lib/kernel/console.c`, outside of interrupts and with
`use_console_lock` set. A thread may lose the processor at every step, also inside of
`console_lock_depth++`. `console_lock` is taken when nobody holds it.
-/

namespace Pintos.Console

open Function Machine

variable {T : Type}

/-- What a thread does next in one of the functions. -/
inductive Pc where
  | outside
  | testHeld
  | loadUp
  | storeUp (depth : Int)
  | lockAcquire
  | testDepth
  | loadDown
  | storeDown (depth : Int)
  | lockRelease
  deriving DecidableEq

structure State (T : Type) where
  holder : Option T := none
  consoleLockDepth : Int := 0
  pc : T → Pc := fun _ => .outside
  /-- The calls of `acquire_console` that have returned, less those of `release_console`. -/
  nesting : T → Nat := fun _ => 0

inductive Event (T : Type) where
  | acquireConsole (t : T)
  | releaseConsole (t : T)
  | statement (t : T)

namespace State

variable [DecidableEq T] (s : State T) (t : T)

def goto (pc : Pc) : State T := { s with pc := update s.pc t pc }

/-- A call returns to the thread, which is then in `n` pairs of calls. -/
def leave (n : Nat) : State T := { s.goto t .outside with nesting := update s.nesting t n }

def statement : Option (State T) :=
  match s.pc t with
  | .outside => none
  | .testHeld => some (s.goto t (if s.holder = some t then .loadUp else .lockAcquire))
  | .loadUp => some (s.goto t (.storeUp s.consoleLockDepth))
  | .storeUp depth => some { s.leave t (s.nesting t + 1) with consoleLockDepth := depth + 1 }
  | .lockAcquire =>
    if s.holder = none then some { s.leave t (s.nesting t + 1) with holder := some t } else none
  | .testDepth => some (s.goto t (if s.consoleLockDepth > 0 then .loadDown else .lockRelease))
  | .loadDown => some (s.goto t (.storeDown s.consoleLockDepth))
  | .storeDown depth => some { s.leave t (s.nesting t - 1) with consoleLockDepth := depth - 1 }
  | .lockRelease =>
    if s.holder = some t then some { s.leave t (s.nesting t - 1) with holder := none } else none

/-- Calls are balanced: a thread releases what it has acquired. -/
def step : Event T → Option (State T)
  | .acquireConsole t => if s.pc t = .outside then some (s.goto t .testHeld) else none
  | .releaseConsole t =>
    if s.pc t = .outside ∧ 0 < s.nesting t then some (s.goto t .testDepth) else none
  | .statement t => s.statement t

/-- What a thread knows where it is. -/
def Place : Pc → Prop
  | .outside | .testHeld => True
  | .lockAcquire => s.holder ≠ some t
  | .loadUp | .testDepth => s.holder = some t
  | .storeUp depth => s.holder = some t ∧ depth = s.consoleLockDepth
  | .loadDown => s.holder = some t ∧ 0 < s.consoleLockDepth
  | .storeDown depth => s.holder = some t ∧ depth = s.consoleLockDepth ∧ 0 < depth
  | .lockRelease => s.holder = some t ∧ s.consoleLockDepth = 0

structure Inv : Prop where
  place : ∀ t, s.Place t (s.pc t)
  holder : ∀ t, s.holder = some t ↔ 0 < s.nesting t
  depth : s.consoleLockDepth = s.holder.elim 0 fun t => (s.nesting t : Int) - 1

variable {s s' : State T} {t : T} {pc : Pc}

omit [DecidableEq T] in
/-- The threads that do not hold the lock know of nothing that the holder changes. -/
theorem Place.other (place : s.Place t pc) (was : s.holder ≠ some t) (now : s'.holder ≠ some t) :
    s'.Place t pc := by
  cases pc <;> simp_all [Place]

theorem Inv.goto (inv : Inv s) (place : s.Place t pc) : Inv (s.goto t pc) where
  place u := by
    by_cases h : u = t
    · subst h
      simpa [State.goto, Place] using place
    · simpa [State.goto, Place, h] using inv.place u
  holder := inv.holder
  depth := inv.depth

/-- A call returns to the only thread that may hold the lock. -/
theorem Inv.leave (inv : Inv s) {n : Nat} {holder : Option T} {depth : Int}
    (alone : ∀ u, s.holder = some u → u = t) (now : holder = if 0 < n then some t else none)
    (counts : depth = (n - 1 : Nat)) :
    Inv { s.leave t n with holder, consoleLockDepth := depth } where
  place u := by
    by_cases h : u = t
    · subst h
      simp [State.leave, State.goto, Place]
    · have away : holder ≠ some u := by grind
      simpa [State.leave, State.goto, h] using (inv.place u).other (mt (alone u) h) away
  holder u := by
    by_cases h : u = t
    · subst h
      by_cases pos : 0 < n <;> simp [State.leave, now, pos]
    · have away : ¬ 0 < s.nesting u := mt (fun some => alone u ((inv.holder u).mpr some)) h
      simp [State.leave, h, away]
      grind
  depth := by
    rcases Nat.eq_zero_or_pos n with rfl | pos
    · simp [now, counts]
    · have cast : ((n - 1 : Nat) : Int) = n - 1 := by omega
      simp [State.leave, now, counts, pos, cast]

theorem Inv.step {e : Event T} (inv : Inv s) (h : s.step e = some s') : Inv s' := by
  cases e with
  | acquireConsole t =>
    simp only [State.step] at h
    split_ifs at h
    cases h
    exact inv.goto trivial
  | releaseConsole t =>
    simp only [State.step] at h
    split_ifs at h with ready
    cases h
    exact inv.goto ((inv.holder t).mpr ready.2)
  | statement t =>
    have place := inv.place t
    have alone : s.holder = some t → ∀ u, s.holder = some u → u = t := by
      intro held u other
      exact Option.some.inj (other.symm.trans held)
    have count : s.holder = some t → s.consoleLockDepth = (s.nesting t - 1 : Nat) := by
      intro held
      have pos := (inv.holder t).mp held
      rw [inv.depth, held, Option.elim_some]
      omega
    simp only [State.step, statement] at h
    cases hp : s.pc t with
    | outside => simp [hp] at h
    | testHeld | loadUp | testDepth | loadDown =>
      simp only [hp, Option.some.injEq] at h place
      subst h
      apply inv.goto
      first | split | skip
      all_goals simp_all [Place]
    | storeUp depth =>
      simp only [hp, Option.some.injEq] at h place
      subst h
      obtain ⟨held, rfl⟩ := place
      have pos := (inv.holder t).mp held
      exact inv.leave (alone held) (held.trans (if_pos (by omega)).symm) (by rw [count held]; omega)
    | lockAcquire =>
      simp only [hp] at h
      split_ifs at h with free
      cases h
      have none : s.nesting t = 0 := by simpa [free] using inv.holder t
      have flat : s.consoleLockDepth = 0 := by simp [inv.depth, free]
      exact inv.leave (by simp [free]) (if_pos (by omega)).symm (flat.trans (by simp [none]))
    | storeDown depth =>
      simp only [hp, Option.some.injEq] at h place
      subst h
      obtain ⟨held, rfl, deep⟩ := place
      have counted := count held
      exact inv.leave (alone held) (held.trans (if_pos (by omega)).symm) (by omega)
    | lockRelease =>
      simp only [hp] at h place
      obtain ⟨held, flat⟩ := place
      have pos := (inv.holder t).mp held
      have counted := count held
      split_ifs at h
      cases h
      exact inv.leave (alone held) (if_neg (by omega)).symm (flat.trans (by omega))

end State

open State

/-- In every interleaving, the lock is held by the one thread that is between an acquire and its
release, and the depth is its own. -/
theorem console_lock_recursive [DecidableEq T] {history : List (Event T)} {s : State T}
    (run : Run step Free {} history s) :
    (∀ t, s.holder = some t ↔ 0 < s.nesting t) ∧
    (∀ t u, 0 < s.nesting t → 0 < s.nesting u → t = u) ∧
    s.consoleLockDepth = s.holder.elim 0 (fun t => (s.nesting t : Int) - 1) ∧
    (∀ t depth, s.pc t = .storeDown depth →
      s.holder = some t ∧ depth = s.consoleLockDepth ∧ 0 < depth) ∧
    ∀ t, s.pc t = .lockRelease → s.holder = some t ∧ s.nesting t = 1 := by
  have inv : Inv s := by
    apply run.invariant (I := Inv)
    · exact ⟨fun _ => trivial, by simp, rfl⟩
    · exact fun _ _ _ inv _ ran => inv.step ran
  refine ⟨inv.holder, fun t u ht hu => ?_, inv.depth, fun t depth h => ?_, fun t h => ?_⟩
  · rw [← inv.holder] at ht hu
    exact Option.some.inj (ht.symm.trans hu)
  · have place := inv.place t
    rwa [h] at place
  · have place := inv.place t
    rw [h] at place
    obtain ⟨held, flat⟩ := place
    have depth := inv.depth
    rw [held, flat, Option.elim_some] at depth
    exact ⟨held, by omega⟩

/-- One thread acquires twice, another waits, the first releases once. -/
def twice : List (Event Bool) :=
  [.acquireConsole true, .statement true, .statement true, .acquireConsole true, .statement true,
    .statement true, .statement true, .acquireConsole false, .statement false, .releaseConsole true,
    .statement true, .statement true, .statement true]

theorem console_lock_recursive_twice : ∃ s, Run step Free {} twice.reverse s ∧
    (∀ t, s.holder = some t ↔ 0 < s.nesting t) := by
  have seen : (runs step Free {} twice).isSome = true := by decide +kernel
  obtain ⟨s, ran⟩ := Option.isSome_iff_exists.mp seen
  exact ⟨s, runs_run ran, (console_lock_recursive (runs_run ran)).1⟩

end Pintos.Console
