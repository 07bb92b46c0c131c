import Pintos.Devices.Intq

/-!
# Waiting for an interrupt queue

A thread that waits holds the queue's lock, so at most one thread is recorded. The test of the queue
comes before `lock_acquire`: a thread that had to wait for the lock may find that what it was about
to wait for has happened, and the assertion in `wait` fails.
-/

namespace Pintos.Devices

open Machine Function Option

/-- The thread holds the lock. -/
def Pc.holds : Pc → Bool
  | .wait _ | .release _ => true
  | _ => false

/-- The thread goes on without a pause from here. -/
def Pc.busy : Pc → Bool
  | .wait _ | .move _ => true
  | _ => false

/-- The thread may be blocked here. -/
def Pc.pauses : Pc → Bool
  | .acquire _ | .release _ => true
  | _ => false

@[grind cases] structure Sane (s : Monitor) : Prop where
  places : s.q.head < intqBufsize ∧ s.q.tail < intqBufsize
  lock : s.q.value = if s.q.holder = none then 1 else 0
  holder : ∀ t, s.q.holder = some t ↔ (s.pc t).holds = true
  recorded : ∀ w t, s.q.waiter w = some t →
    s.blocked t = true ∧ ∃ op, s.pc t = .release op ∧ op.waiter = w
  queued : ∀ t ∈ s.q.waiters, s.blocked t = true ∧ ∃ op, s.pc t = .acquire op
  nodup : s.q.waiters.Nodup
  asleep : ∀ t, s.blocked t = true → (s.pc t).pauses = true
  awake : ∀ t, s.running = some t → s.blocked t = false
  busy : ∀ t, (s.pc t).busy = true → s.running = some t
  moves : ∀ t op, s.pc t = .move op → s.q.blocks op.waiter = false

theorem sane_init (buf : Nat → UInt8) : Sane (Monitor.init buf) := by
  constructor <;> simp [Monitor.init, intqBufsize, Pc.holds, Pc.busy]

variable {s s' : Monitor} {t : ThreadPtr} {op : Op}

@[grind =] theorem setWaiter_waiter (q : Intq) (w w' : Waiter) (t : Option ThreadPtr) :
    (q.setWaiter w t).waiter w' = if w' = w then t else q.waiter w' :=
  update_apply ..

theorem setWaiter_blocks (q : Intq) (w w' : Waiter) (t : Option ThreadPtr) :
    (q.setWaiter w t).blocks w' = q.blocks w' := by
  cases w' <;> rfl

theorem next_lt (pos : Nat) : next pos < intqBufsize := Nat.mod_lt _ (by decide)

theorem blocks_move (places : s.q.head < intqBufsize ∧ s.q.tail < intqBufsize)
    (may : s.q.blocks op.waiter = false) : (s.q.move op).blocks op.other = false := by
  unfold intqBufsize at places
  cases op with
  | getc =>
    have may : ¬ s.q.head = s.q.tail := of_decide_eq_false may
    have full : ¬ (s.q.head + 1) % 64 = (s.q.tail + 1) % 64 := by omega
    exact decide_eq_false full
  | putc byte => exact may

namespace Sane

section
variable (sane : Sane s)
include sane

theorem goto {new : Pc} (awake : s.blocked t = false) (holds : new.holds = (s.pc t).holds)
    (hb : new.busy = true → s.running = some t)
    (moves : ∀ op, new = .move op → s.q.blocks op.waiter = false) : Sane (s.goto t new) := by
  obtain ⟨places, lock, holder, recorded, queued, nodup, asleep, _, _, _⟩ := sane
  constructor <;> simp only [Monitor.goto] <;> grind [update_apply]

theorem run (hi : s.running = none) (awake : s.blocked t = false) :
    Sane { s with running := some t } := by
  constructor <;> grind [update_apply]

theorem stop (rests : ∀ t, s.running = some t → (s.pc t).busy = false) :
    Sane { s with running := none } := by
  constructor <;> grind [update_apply]

theorem shift (still : ∀ t op, s.pc t ≠ .move op) (returned : List UInt8) :
    Sane { s with q := s.q.move op, returned } := by
  obtain ⟨places, lock, holder, recorded, queued, nodup, asleep, awake, hb, _⟩ := sane
  have moves : ∀ t op', s.pc t = .move op' → (s.q.move op).blocks op'.waiter = false :=
    fun t op' h => absurd h (still t op')
  cases op with
  | getc =>
    exact ⟨⟨places.1, next_lt _⟩, lock, holder, recorded, queued, nodup, asleep, awake, hb, moves⟩
  | putc byte =>
    exact ⟨⟨next_lt _, places.2⟩, lock, holder, recorded, queued, nodup, asleep, awake, hb, moves⟩

/-- Wakes a thread that waits by a field, and keeps all else. -/
theorem signal {w : Waiter} (may : s.q.blocks w = false) : Sane (s.signal w) ∧
    (s.signal w).panic = s.panic ∧ (s.signal w).pc = s.pc ∧ (s.signal w).running = s.running := by
  unfold Monitor.signal
  rw [if_neg (by simp [may])]
  split
  · exact ⟨sane, rfl, rfl, rfl⟩
  · rename_i u is
    obtain ⟨places, lock, holder, recorded, queued, nodup, asleep, awake, busy, moves⟩ := sane
    obtain ⟨sleeps, op, here, _⟩ := recorded w u is
    simp only [Monitor.threadUnblock, sleeps, if_true, and_self, and_true]
    constructor
    case places => exact places
    case lock => exact lock
    case holder => exact holder
    case recorded => grind
    case queued => grind [update_apply, Intq.setWaiter]
    case nodup => exact nodup
    case asleep => grind [update_apply, Pc.pauses]
    case awake => grind [update_apply]
    case busy => exact busy
    case moves => grind [setWaiter_blocks]

theorem move (may : s.q.blocks op.waiter = false) (still : ∀ t op, s.pc t ≠ .move op) :
    Sane (s.move op) ∧ (s.move op).panic = s.panic ∧ (s.move op).pc = s.pc ∧
      (s.move op).running = s.running :=
  (sane.shift still _).signal (blocks_move sane.places may)

theorem fail (text : String) : Sane (s.fail text) :=
  ⟨sane.places, sane.lock, sane.holder, sane.recorded, sane.queued, sane.nodup, sane.asleep,
    sane.awake,
    sane.busy, sane.moves⟩

theorem wait (here : s.pc t = .wait op) (runs : s.running = some t)
    (empty : s.q.blocks op.waiter = true) : Sane (s.wait t op) ∧ (s.wait t op).panic = s.panic := by
  obtain ⟨places, lock, holder, recorded, queued, nodup, asleep, awake, busy, moves⟩ := sane
  have held : s.q.holder = some t := (holder t).mpr (here ▸ rfl)
  unfold Monitor.wait
  rw [if_pos empty]
  refine ⟨?_, rfl⟩
  simp only [Monitor.goto, Monitor.block]
  constructor
  case places => exact places
  case lock => exact lock
  case holder =>
    intro u
    simp only [update_apply]
    grind [Pc.holds, Intq.setWaiter]
  case recorded => grind [update_apply]
  case queued => grind [update_apply, Intq.setWaiter]
  case nodup => exact nodup
  case asleep => grind [update_apply, Pc.pauses]
  case awake => grind
  case busy => grind [update_apply, Pc.busy]
  case moves => grind [update_apply, Pc.busy]

theorem acquire (here : s.pc t = .acquire op) (runs : s.running = some t) :
    Sane (s.lockAcquire t op) ∧ (s.lockAcquire t op).panic = s.panic := by
  obtain ⟨places, lock, holder, recorded, queued, nodup, asleep, awake, busy, moves⟩ := sane
  have free : s.q.holder ≠ some t := fun held => by
    have := (holder t).mp held
    rw [here] at this
    cases this
  unfold Monitor.lockAcquire
  rw [if_neg free]
  split
  · refine ⟨?_, rfl⟩
    simp only [Monitor.block]
    constructor
    case places => exact places
    case lock => exact lock
    case holder => exact holder
    case recorded => grind [update_apply]
    case queued => grind [update_apply]
    case nodup => grind
    case asleep => grind [update_apply, Pc.pauses]
    case awake => grind
    case busy => grind [Pc.busy]
    case moves => exact moves
  · refine ⟨?_, rfl⟩
    simp only [Monitor.goto]
    constructor
    case places => exact places
    case lock => grind
    case holder => grind [update_apply, Pc.holds]
    case recorded => grind [update_apply]
    case queued => grind [update_apply]
    case nodup => exact nodup
    case asleep => grind [update_apply, Pc.pauses]
    case awake => exact awake
    case busy => grind [update_apply]
    case moves => grind [update_apply, Pc.busy]

theorem release (here : s.pc t = .release op) (runs : s.running = some t)
    {wake : ThreadPtr} {yields : Bool} (done : s.lockRelease t op wake yields = some s') :
    Sane s' ∧ s'.panic = s.panic := by
  obtain ⟨places, lock, holder, recorded, queued, nodup, asleep, awake, busy, moves⟩ := sane
  have held : s.q.holder = some t := (holder t).mpr (here ▸ rfl)
  unfold Monitor.lockRelease at done
  rw [if_pos held] at done
  obtain ⟨s1, upped, rfl⟩ := map_eq_some_iff.mp done
  have alone : ∀ u, (update s.pc t (.test op) u).busy = false := by grind [update_apply, Pc.busy]
  have nobody : ∀ u, (update s.pc t (.test op) u).holds = false := by
    grind [update_apply, Pc.holds]
  have recorded' : ∀ w u, s.q.waiter w ≠ some u := by
    intro w u is
    obtain ⟨_, op', here', _⟩ := recorded w u is
    have := (holder u).mpr (by rw [here']; rfl)
    grind
  unfold Monitor.semaUp Monitor.goto at upped
  dsimp only at upped
  split at upped
  · rename_i none
    cases upped
    refine ⟨?_, rfl⟩
    constructor
    case places => exact places
    case lock => grind
    case holder => grind
    case recorded => grind
    case queued => grind
    case nodup => exact nodup
    case asleep => grind [update_apply, Pc.pauses]
    case awake => grind
    case busy => grind
    case moves => grind [Pc.busy]
  · split_ifs at upped with mem
    cases upped
    obtain ⟨sleeps, op', here'⟩ := queued wake mem
    simp only [Monitor.threadUnblock, sleeps, if_true, and_true]
    constructor
    case places => exact places
    case lock => grind
    case holder => grind
    case recorded => grind
    case queued => grind
    case nodup => exact nodup.erase wake
    case asleep => grind [update_apply, Pc.pauses]
    case awake => grind [update_apply]
    case busy => grind
    case moves => grind [Pc.busy]

end

end Sane

/-- The thread that runs is about to wait, and what it would wait for has happened. -/
def Monitor.Misses (s : Monitor) : Prop :=
  ∃ t op, s.running = some t ∧ s.pc t = .wait op ∧ s.q.blocks op.waiter = false

/-- No assertion fails but the one in `wait`. -/
theorem Sane.step {e : IntqEvent} (sane : Sane s) (ran : s.step e = some s') :
    Sane s' ∧ (s'.panic = none ∨ s.Misses ∧ s'.panic = some Monitor.waitText) := by
  unfold Monitor.step at ran
  split_ifs at ran with panicked
  have calm : s.panic = none := not_not.mp panicked
  cases e with
  | call t op =>
    dsimp only at ran
    split_ifs at ran with may
    cases ran
    have awake : s.blocked t = false := by
      by_contra sleeps
      have := sane.asleep t (by simpa using sleeps)
      rw [may.2] at this
      cases this
    refine ⟨?_, .inl calm⟩
    apply (sane.run may.1 awake).goto awake
    · rw [may.2]
      rfl
    · nofun
    · nofun
  | dispatch t =>
    dsimp only at ran
    split_ifs at ran with may
    cases ran
    exact ⟨sane.run may.1 may.2.2, .inl calm⟩
  | statement wake yields =>
    obtain ⟨t, runs, ran⟩ := bind_eq_some_iff.mp ran
    have awake := sane.awake t runs
    unfold Monitor.statement at ran
    split at ran
    · cases ran
    · rename_i op h
      cases ran
      refine ⟨sane.goto awake ?_ (fun _ => runs) fun op' moves => ?_, .inl calm⟩
      · rw [h]
        split <;> rfl
      · grind
    · rename_i op h
      cases ran
      obtain ⟨acquired, panic⟩ := sane.acquire h runs
      exact ⟨acquired, .inl (panic.trans calm)⟩
    · rename_i op h
      cases ran
      cases blocks : s.q.blocks op.waiter with
      | true =>
        obtain ⟨hw, panic⟩ := sane.wait h runs blocks
        exact ⟨hw, .inl (panic.trans calm)⟩
      | false =>
        have fails : s.wait t op = s.fail Monitor.waitText := by
          unfold Monitor.wait
          rw [if_neg (by simp [blocks])]
        rw [fails]
        exact ⟨sane.fail _, .inr ⟨⟨t, op, runs, h, blocks⟩, rfl⟩⟩
    · rename_i op h
      obtain ⟨released, panic⟩ := sane.release h runs ran
      exact ⟨released, .inl (panic.trans calm)⟩
    · rename_i op h
      cases ran
      have still : ∀ u op, (s.goto t .outside).pc u ≠ .move op := by
        intro u op' there
        simp only [Monitor.goto, update_apply] at there
        split at there
        · cases there
        · rename_i ne
          have := sane.busy u (there ▸ rfl)
          rw [runs] at this
          exact ne (some.inj this).symm
      have out : Sane (s.goto t .outside) := by
        apply sane.goto awake
        · rw [h]
          rfl
        · nofun
        · nofun
      obtain ⟨hm, panic, pc, runs'⟩ := out.move (sane.moves t op h) still
      refine ⟨hm.stop fun u is => ?_, .inl (panic.trans calm)⟩
      rw [runs'] at is
      have eq : t = u := some.inj (runs.symm.trans is)
      rw [pc, ← eq]
      simp [Monitor.goto, Pc.busy]
  | handler op =>
    dsimp only at ran
    split_ifs at ran with may
    cases ran
    have still : ∀ t op, s.pc t ≠ .move op := by
      intro t op' h
      have := sane.busy t (h ▸ rfl)
      rw [may.1] at this
      cases this
    obtain ⟨hm, panic, _⟩ := sane.move may.2 still
    exact ⟨hm, .inl (panic.trans calm)⟩

/-- Whoever is recorded holds the lock. -/
theorem Sane.unrecorded (sane : Sane s) (h : s.pc t = .wait op) (w : Waiter) :
    s.q.waiter w = none := by
  cases is : s.q.waiter w with
  | none => rfl
  | some u =>
    obtain ⟨_, op', there, _⟩ := sane.recorded w u is
    have mine := (sane.holder t).mpr (h ▸ rfl)
    have theirs := (sane.holder u).mpr (there ▸ rfl)
    rw [mine] at theirs
    cases theirs
    rw [h] at there
    cases there

/-- In every run, the field in which a thread is about to be recorded is free. -/
theorem never_overwritten {buf : Nat → UInt8} {history : List IntqEvent}
    (run : Run Monitor.step Free (Monitor.init buf) history s) (h : s.pc t = .wait op) :
    s.q.waiter op.waiter = none := by
  have sane : Sane s := run.invariant (sane_init buf) fun _ _ _ sane _ ran => (sane.step ran).1
  exact sane.unrecorded h op.waiter

/-! ### Where the lock is free -/

/-- A thread asks for the lock while another has it. -/
def Monitor.contended (s : Monitor) : IntqEvent → Bool
  | .statement _ _ =>
    match s.running.map s.pc with
    | some (.acquire _) => s.q.holder.isSome
    | _ => false
  | _ => false

def Uncontended (s : Monitor) (e : IntqEvent) : Prop := s.contended e = false

instance (s : Monitor) : DecidablePred (Uncontended s) :=
  fun _ => inferInstanceAs (Decidable (_ = _))

/-- A thread that is on its way to wait has not lost the processor since it looked at the queue. -/
def Prompt (s : Monitor) : Prop :=
  ∀ t op, s.pc t = .acquire op ∨ s.pc t = .wait op → s.running = some t ∧ s.q.blocks op.waiter =
    true

theorem Prompt.other (prompt : Prompt s) (eq : s'.pc = s.pc) (hi : s.running = none) :
    Prompt s' := by
  intro t op h
  rw [eq] at h
  have := (prompt t op h).1
  rw [hi] at this
  cases this

/-- The thread that runs goes on. -/
theorem Prompt.advance (prompt : Prompt s) (runs : s.running = some t) {new : Pc}
    (pc : s'.pc = update s.pc t new)
    (hw : ∀ op, new = .acquire op ∨ new = .wait op → s'.running = some t ∧ s'.q.blocks op.waiter =
      true) :
    Prompt s' := by
  intro u op h
  rw [pc, update_apply] at h
  split at h
  · rename_i eq
    rw [eq]
    exact hw op h
  · rename_i ne
    have := (prompt u op h).1
    rw [runs] at this
    exact absurd (some.inj this).symm ne

theorem threadUnblock_pc (s : Monitor) (t : ThreadPtr) : (s.threadUnblock t).pc = s.pc := by
  unfold Monitor.threadUnblock
  split <;> rfl

theorem move_pc (s : Monitor) (op : Op) : (s.move op).pc = s.pc := by
  unfold Monitor.move Monitor.signal
  dsimp only
  split
  · rfl
  · split
    · rfl
    · exact threadUnblock_pc ..

theorem lockRelease_pc {wake : ThreadPtr} {yields : Bool} (held : s.q.holder = some t)
    (done : s.lockRelease t op wake yields = some s') : s'.pc = update s.pc t (.test op) := by
  unfold Monitor.lockRelease at done
  rw [if_pos held] at done
  obtain ⟨s1, upped, rfl⟩ := map_eq_some_iff.mp done
  unfold Monitor.semaUp at upped
  split at upped
  · cases upped
    rfl
  · split_ifs at upped
    cases upped
    exact threadUnblock_pc ..

theorem Prompt.step {e : IntqEvent} (prompt : Prompt s) (sane : Sane s) (free : Uncontended s e)
    (ran : s.step e = some s') : Prompt s' := by
  unfold Monitor.step at ran
  split_ifs at ran
  cases e with
  | call t op =>
    dsimp only at ran
    split_ifs at ran with may
    cases ran
    intro u op' h
    simp only [Monitor.goto, update_apply] at h
    split at h
    · rcases h with h | h <;> cases h
    · have := (prompt u op' h).1
      rw [may.1] at this
      cases this
  | dispatch t =>
    dsimp only at ran
    split_ifs at ran with may
    cases ran
    exact prompt.other rfl may.1
  | handler op =>
    dsimp only at ran
    split_ifs at ran with may
    cases ran
    exact prompt.other (move_pc s op) may.1
  | statement wake yields =>
    obtain ⟨t, runs, ran⟩ := bind_eq_some_iff.mp ran
    unfold Monitor.statement at ran
    split at ran
    · cases ran
    · rename_i op h
      cases ran
      apply prompt.advance runs rfl
      intro op' goes
      split at goes
      · rename_i blocks
        rcases goes with goes | goes <;> cases goes
        exact ⟨runs, blocks⟩
      · rcases goes with goes | goes <;> cases goes
    · rename_i op h
      cases ran
      have open_ : s.q.holder = none := by
        have free : s.contended (.statement wake yields) = false := free
        simpa [Monitor.contended, runs, h] using free
      have value : s.q.value = 1 := by rw [sane.lock, if_pos open_]
      have takes : s.lockAcquire t op =
          { s with q := { s.q with value := s.q.value - 1, holder := some t } }.goto t
            (.wait op) := by
        unfold Monitor.lockAcquire
        rw [if_neg (by simp [open_]), if_neg (by omega)]
      rw [takes]
      apply prompt.advance runs rfl
      rintro op' (goes | goes) <;> cases goes
      obtain ⟨_, blocks⟩ := prompt t op (.inl h)
      refine ⟨runs, ?_⟩
      rw [← blocks]
      cases op <;> rfl
    · rename_i op h
      cases ran
      have hw : s.wait t op =
          ({ s with q := s.q.setWaiter op.waiter (some t) }.goto t (.release op)).block t := by
        unfold Monitor.wait
        rw [if_pos (prompt t op (.inr h)).2]
      rw [hw]
      exact prompt.advance runs rfl nofun
    · rename_i op h
      have held := (sane.holder t).mpr (h ▸ rfl)
      exact prompt.advance runs (lockRelease_pc held ran) nofun
    · rename_i op h
      cases ran
      exact prompt.advance runs (move_pc _ op) nofun

/-- Where no thread asks for the lock while another has it, no assertion fails, and no thread is
recorded where a thread is about to record itself. -/
theorem waits_justified {buf : Nat → UInt8} {history : List IntqEvent}
    (run : Run Monitor.step Uncontended (Monitor.init buf) history s) :
    s.panic = none ∧ ∀ t op, s.running = some t → s.pc t = .wait op →
      s.q.blocks op.waiter = true ∧ s.q.waiter op.waiter = none := by
  obtain ⟨sane, prompt, calm⟩ : Sane s ∧ Prompt s ∧ s.panic = none := by
    apply run.invariant
    · exact ⟨sane_init buf, nofun, rfl⟩
    · rintro s e s' ⟨sane, prompt, _⟩ free ran
      obtain ⟨sane', fails⟩ := sane.step ran
      refine ⟨sane', prompt.step sane free ran, fails.resolve_right ?_⟩
      rintro ⟨⟨t, op, _, h, missed⟩, _⟩
      rw [(prompt t op (.inr h)).2] at missed
      cases missed
  exact ⟨calm, fun t op _ h => ⟨(prompt t op (.inr h)).2, sane.unrecorded h op.waiter⟩⟩

/-- A reader waits and is woken; before it is back, another takes both bytes and is to wait. -/
def inTurn : List IntqEvent :=
  [.call 1 .getc, .statement 0 false, .statement 0 false, .statement 0 false, .handler (.putc 7),
    .handler (.putc 8), .dispatch 1, .statement 0 true, .call 2 .getc, .statement 0 false,
    .statement 0 false, .call 2 .getc, .statement 0 false, .statement 0 false, .call 2 .getc,
    .statement 0 false, .statement 0 false]

theorem waits_justified_inTurn : ∃ s,
    Run Monitor.step Uncontended (Monitor.init fun _ => 0) inTurn.reverse s ∧ s.returned = [8, 7] ∧
      s.pc 1 = .test .getc ∧ s.pc 2 = .wait .getc ∧ s.panic = none ∧ s.q.empty = true := by
  have seen : (runs Monitor.step Uncontended (Monitor.init fun _ => 0) inTurn).map (fun s => decide
      (s.running = some 2 ∧ s.returned = [8, 7] ∧ s.pc 1 = .test .getc ∧ s.pc 2 = .wait .getc)) =
        some true := by
    decide +kernel
  obtain ⟨s, ran, seen⟩ := map_eq_some_iff.mp seen
  obtain ⟨running, returned, first, second⟩ := of_decide_eq_true seen
  have run := runs_run ran
  obtain ⟨calm, hw⟩ := waits_justified run
  exact ⟨s, run, returned, first, second, calm, (hw 2 .getc running second).1⟩

/-- Two readers wait, one of them for the lock, when two bytes arrive. -/
def twoReaders : List IntqEvent :=
  [.call 1 .getc, .statement 0 false, .statement 0 false, .statement 0 false, .call 2 .getc,
    .statement 0 false, .statement 0 false, .handler (.putc 7), .handler (.putc 8), .dispatch 1,
    .statement 2 false, .statement 0 false, .statement 0 false, .dispatch 2, .statement 0 false]

/-- The first reader takes one byte and leaves the other; the second has the lock now and would wait
for what is there. -/
theorem wait_misses : ∃ s s', Run Monitor.step Free (Monitor.init fun _ => 0) twoReaders.reverse s ∧
    s.running = some 2 ∧ s.pc 2 = .wait .getc ∧ s.q.empty = false ∧
    s.step (.statement 0 false) = some s' ∧ s'.panic = some Monitor.waitText := by
  have seen : ((runs Monitor.step Free (Monitor.init fun _ => 0) twoReaders).bind fun s =>
      (s.step (.statement 0 false)).map fun s' => decide
        (s.running = some 2 ∧ s.pc 2 = .wait .getc ∧
        s.q.empty = false ∧ s'.panic = some Monitor.waitText)) = some true := by decide +kernel
  obtain ⟨s, ran, seen⟩ := bind_eq_some_iff.mp seen
  obtain ⟨s', stepped, seen⟩ := map_eq_some_iff.mp seen
  obtain ⟨running, pc, empty, panic⟩ := of_decide_eq_true seen
  exact ⟨s, s', runs_run ran, running, pc, empty, stepped, panic⟩

theorem never_overwritten_twoReaders : ∃ s,
    Run Monitor.step Free (Monitor.init fun _ => 0) twoReaders.reverse s ∧
      s.pc 2 = .wait .getc ∧ s.q.waiter .notEmpty = none := by
  have seen : (runs Monitor.step Free (Monitor.init fun _ => 0) twoReaders).map (fun s => s.pc 2) =
      some (.wait .getc) := by decide +kernel
  obtain ⟨s, ran, h⟩ := map_eq_some_iff.mp seen
  exact ⟨s, runs_run ran, h, never_overwritten (runs_run ran) h⟩

end Pintos.Devices
