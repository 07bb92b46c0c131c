import Pintos.Threads.Atomic
import Pintos.Threads.Donors

/-!
# Preemption inside the donation of a priority

`donate_priority` statement by statement. The machine is that of
`Pintos.Threads.Preemption`, except that a thread whose next instruction is
`donatePriority` runs one statement of the function at a time and may be interrupted
between any two.
-/

namespace Pintos.Threads

open Ordered List Option

/-- The statement of `donate_priority` a thread is at, with its local variables. `l` is the
lock whose `holder` was read into the variable of that name, `h`. -/
inductive DonateAt where
  | test (t : ThreadPtr) (depth : Nat)
  | readHolder (t : ThreadPtr) (depth : Nat)
  | compare (t : ThreadPtr) (depth : Nat) (l : LockPtr) (h : ThreadPtr)
  | setPriority (t : ThreadPtr) (depth : Nat) (l : LockPtr) (h : ThreadPtr)
  | readStatus (t : ThreadPtr) (depth : Nat) (l : LockPtr) (h : ThreadPtr)
  | remove (t : ThreadPtr) (depth : Nat) (l : LockPtr) (h : ThreadPtr)
  | insert (t : ThreadPtr) (depth : Nat) (l : LockPtr) (h : ThreadPtr)
  deriving DecidableEq

namespace Kernel

/-- `list_remove` takes an element out of the list it is in, whichever that is. -/
def unlink (k : Kernel) (h : ThreadPtr) : Kernel :=
  { k with
    readyList := k.readyList.erase h
    sleepList := k.sleepList.erase h
    sema := fun s => { k.sema s with waiters := (k.sema s).waiters.erase h } }

/-- The statement, and the one after it inside the function. Nothing when a null pointer is
followed. -/
def donateStatement (k : Kernel) : DonateAt → Option (Kernel × Option DonateAt)
  | .test t depth =>
    some (k, if (k.thread t).waitingLock ≠ none ∧ depth < donationDepth then
      some (.readHolder t depth) else none)
  | .readHolder t depth =>
    (k.thread t).waitingLock.map fun l => (k, (k.holder l).map (.compare t depth l))
  | .compare t depth l h =>
    some (k, if (k.thread h).priority ≥ (k.thread t).priority then none
      else some (.setPriority t depth l h))
  | .setPriority t depth l h =>
    some (k.modify h fun th => { th with priority := (k.thread t).priority },
      some (.readStatus t depth l h))
  | .readStatus t depth l h =>
    some (k, some (if (k.thread h).status = .ready then .remove t depth l h
      else .test h (depth + 1)))
  | .remove t depth l h => some (k.unlink h, some (.insert t depth l h))
  | .insert _ depth _ h =>
    some ({ k with readyList := insertOrdered k.threadPriorityGreater h k.readyList },
      some (.test h (depth + 1)))

end Kernel

structure Racing where
  kernel : Kernel
  /-- Where each thread is inside `donate_priority`. -/
  donor : ThreadPtr → Option DonateAt

namespace Racing

def place (r : Racing) : Option DonateAt := r.donor r.kernel.current

def moveTo (r : Racing) (place : Option DonateAt) : ThreadPtr → Option DonateAt :=
  Function.update r.donor r.kernel.current place

/-- One statement of the running thread, which is in `donate_priority` and has `rest` to do
after it. -/
def donate (r : Racing) (rest : List Instr) : Option Racing :=
  match r.place with
  | none => some { r with donor := r.moveTo (some (.test r.kernel.current 0)) }
  | some place => (r.kernel.donateStatement place).map fun next =>
      match next.2 with
      | none => ⟨next.1.setStack next.1.current rest, r.moveTo none⟩
      | some place' => ⟨next.1, r.moveTo (some place')⟩

def step (r : Racing) (e : Event) : Option Racing :=
  match e, (r.kernel.thread r.kernel.current).stack with
  | .exec, .donatePriority :: rest => r.donate rest
  | e, _ => (r.kernel.step e).map fun k => { r with kernel := k }

def boot (mlfqs : Bool) (value : Nat → Nat) : Racing := ⟨Kernel.boot mlfqs value, fun _ => none⟩

/-- What the next statement of the running thread relies on: `lock->holder` is not null where it
is followed, the thread whose status is read has the lock, a thread is moved in `ready_list`
only if it is there, and who comes back from `lock_acquire` is in no list of donors. -/
structure Safe (r : Racing) : Prop where
  holder : ∀ l rest, (r.kernel.thread r.kernel.current).stack = .pushDonation l :: rest →
    ∃ h, r.kernel.holder l = some h
  status : ∀ rest t depth l h,
    (r.kernel.thread r.kernel.current).stack = .donatePriority :: rest →
      r.place = some (.readStatus t depth l h) → r.kernel.holder l = some h
  moves : ∀ rest t depth l h,
    (r.kernel.thread r.kernel.current).stack = .donatePriority :: rest →
      r.place = some (.remove t depth l h) → h ∈ r.kernel.readyList
  returns : ∀ l rest r', (r.kernel.thread r.kernel.current).stack = .setHolder l :: rest →
    r.step .exec = some r' → ∀ h, r.kernel.current ∉ (r'.kernel.thread h).donations

end Racing

/-- Instructions of `lock_acquire` between the test of `lock->holder` and its use. -/
@[simp] def Instr.pushes (l : LockPtr) : Instr → Bool
  | .setWaiting l' | .pushDonation l' => l' == l
  | _ => false

theorem Emits.pushes {i : Instr} {new : List Instr} {l : LockPtr} (he : Emits i new) :
    ∀ j ∈ new, j.pushes l = true → i = .lockAcquire l := by
  cases he with
  | downTakes s r => cases s <;> simp [afterDown]
  | tryTakes s => cases s <;> simp [afterTryDown]
  | _ => simp

namespace Racing

/-- No interrupt inside `donate_priority`, and no `lock_release` writes `lock->holder` while
another thread is between its test of that pointer and its `list_push_back`. -/
def Calm (r : Racing) : Event → Prop
  | .exec => match (r.kernel.thread r.kernel.current).stack with
    | .clearHolder l :: _ => ∀ u < r.kernel.created, (r.kernel.thread u).stack.all (!·.pushes l)
    | _ => True
  | _ => r.place = none

instance (r : Racing) : DecidablePred (Calm r) := fun e => by
  unfold Calm
  split
  · split <;> infer_instance
  · infer_instance

end Racing

namespace Kernel

/-! ## One turn of the loop -/

section
variable {k k' : Kernel} {t h : ThreadPtr} {l : LockPtr} {depth : Nat}

/-- What the turn is about to do: thread `h` has the lock `t` waits for, and less priority. -/
structure Raises (k : Kernel) (t : ThreadPtr) (l : LockPtr) (h : ThreadPtr) : Prop where
  waiting : (k.thread t).waitingLock = some l
  held : k.holder l = some h
  lower : (k.thread h).priority < (k.thread t).priority

theorem Raises.donateStep (raises : k.Raises t l h) :
    k.donateStep t = some (k.raise h (k.thread t).priority, h) := by
  simp [Kernel.donateStep, raises.waiting, raises.held, raises.lower]

theorem Raises.busy (raises : k.Raises t l h) (inv : Scheduled k) : h ≠ bootIdle :=
  inv.tidy.holders l h raises.held

theorem Scheduled.ready_mem (inv : Scheduled k) (hb : h ≠ bootIdle)
    (ready : (k.thread h).status = .ready) : h ∈ k.readyList := by
  grind

/-- A ready thread is in no other list, so `list_remove` takes it out of `ready_list` only. -/
theorem Scheduled.unlink_ready (inv : Scheduled k) (ready : (k.thread h).status = .ready)
    (p : Int) : (k.modify h fun th => { th with priority := p }).unlink h =
      { k.modify h fun th => { th with priority := p } with readyList := k.readyList.erase h } := by
  have awake : h ∉ k.sleepList := fun asleep => by
    have := ((inv.lists.sleeping h).mp asleep).1
    simp [ready] at this
  have hi : ∀ s, h ∉ (k.sema s).waiters := fun s hw => by
    have := ((inv.lists.waiting s h).mp hw).1
    simp [ready] at this
  simp [unlink, erase_of_not_mem awake, erase_of_not_mem (hi _), modify]

/-- A turn that starts at depth `depth` with donor `t`, inside the call the running thread made
in kernel `k0`. -/
structure Turn (k0 k : Kernel) (t : ThreadPtr) (depth : Nat) : Prop where
  scheduled : Scheduled k
  current : k.current = k0.current
  code : (k.thread k.current).stack = (k0.thread k0.current).stack
  ends : (donateLoop (donationDepth - depth) k t).1 = k0.donatePriority k0.current

variable {k0 : Kernel}

theorem Turn.begin (inv : Scheduled k) : Turn k k k.current 0 := ⟨inv, rfl, rfl, rfl⟩

theorem Turn.next (turn : Turn k0 k t depth) (shallow : depth < donationDepth)
    (raises : k.Raises t l h) : Turn k0 (k.raise h (k.thread t).priority) h (depth + 1) := by
  obtain ⟨ranked, sorted⟩ := raise_ranked turn.scheduled (k.thread t).priority
    (raises.busy turn.scheduled)
  refine ⟨ranked.scheduled sorted turn.scheduled, ?_, ?_, ?_⟩
  · simpa using turn.current
  · simpa using turn.code
  · have left : donationDepth - depth = donationDepth - (depth + 1) + 1 := by omega
    have ends := turn.ends
    rw [left, donateLoop, raises.donateStep] at ends
    exact ends

/-- The loop ends here, and with it the call. -/
theorem Turn.stop (turn : Turn k0 k t depth)
    (last : depth < donationDepth → k.donateStep t = none) :
    k0.donatePriority k0.current = k := by
  rw [← turn.ends]
  by_cases shallow : depth < donationDepth
  · obtain ⟨left, eq⟩ : ∃ left, donationDepth - depth = left + 1 :=
      ⟨donationDepth - depth - 1, by omega⟩
    rw [eq, donateLoop, last shallow]
  · rw [show donationDepth - depth = 0 by omega]
    rfl

/-- The kernel when the call made in `k0` is at a statement and nothing has interrupted it. -/
inductive Walk (k0 : Kernel) : DonateAt → Kernel → Prop where
  | test {k : Kernel} {t : ThreadPtr} {depth : Nat} : Turn k0 k t depth → Walk k0 (.test t depth) k
  | readHolder {k : Kernel} {t : ThreadPtr} {depth : Nat} {l : LockPtr} :
      Turn k0 k t depth → depth < donationDepth →
      (k.thread t).waitingLock = some l → Walk k0 (.readHolder t depth) k
  | compare {k : Kernel} {t h : ThreadPtr} {depth : Nat} {l : LockPtr} :
      Turn k0 k t depth → depth < donationDepth →
      (k.thread t).waitingLock = some l → k.holder l = some h → Walk k0 (.compare t depth l h) k
  | setPriority {k : Kernel} {t h : ThreadPtr} {depth : Nat} {l : LockPtr} :
      Turn k0 k t depth → depth < donationDepth → k.Raises t l h →
      Walk k0 (.setPriority t depth l h) k
  | readStatus {k : Kernel} {t h : ThreadPtr} {depth : Nat} {l : LockPtr} :
      Turn k0 k t depth → depth < donationDepth → k.Raises t l h →
      Walk k0 (.readStatus t depth l h)
        (k.modify h fun th => { th with priority := (k.thread t).priority })
  | remove {k : Kernel} {t h : ThreadPtr} {depth : Nat} {l : LockPtr} :
      Turn k0 k t depth → depth < donationDepth → k.Raises t l h →
      (k.thread h).status = .ready → Walk k0 (.remove t depth l h)
        (k.modify h fun th => { th with priority := (k.thread t).priority })
  | insert {k : Kernel} {t h : ThreadPtr} {depth : Nat} {l : LockPtr} :
      Turn k0 k t depth → depth < donationDepth → k.Raises t l h →
      (k.thread h).status = .ready → Walk k0 (.insert t depth l h)
        ((k.modify h fun th => { th with priority := (k.thread t).priority }).unlink h)

variable {place : DonateAt}

theorem Walk.current (walk : Walk k0 place k) : k.current = k0.current := by
  cases walk with
  | test turn | readHolder turn | compare turn | setPriority turn | readStatus turn | remove turn
  | insert turn => exact turn.current

theorem Walk.code (walk : Walk k0 place k) :
    (k.thread k.current).stack = (k0.thread k0.current).stack := by
  cases walk with
  | test turn | readHolder turn | compare turn | setPriority turn => exact turn.code
  | readStatus turn | remove turn | insert turn => simpa [unlink] using turn.code

/-- The kernel at the next statement, or after the call. -/
def Walks (k0 : Kernel) : Option DonateAt → Kernel → Prop
  | some place, k => Walk k0 place k
  | none, k => k = k0.donatePriority k0.current

theorem Walk.statement {next : Option DonateAt} (walk : Walk k0 place k)
    (h : k.donateStatement place = some (k', next)) : Walks k0 next k' := by
  cases walk with
  | test turn =>
    simp only [donateStatement, some.injEq, Prod.mk.injEq] at h
    obtain ⟨rfl, rfl⟩ := h
    split_ifs with on
    · obtain ⟨l, waiting⟩ := ne_none_iff_exists'.mp on.1
      exact Walk.readHolder turn on.2 waiting
    · refine (turn.stop fun shallow => ?_).symm
      have free : (k.thread _).waitingLock = none := not_not.mp fun hw => on ⟨hw, shallow⟩
      simp [donateStep, free]
  | readHolder turn shallow waiting =>
    simp only [donateStatement, waiting, map_some, some.injEq, Prod.mk.injEq] at h
    obtain ⟨rfl, rfl⟩ := h
    cases held : k.holder _ with
    | none =>
      refine (turn.stop fun _ => ?_).symm
      simp [donateStep, waiting, held]
    | some h => exact Walk.compare turn shallow waiting held
  | compare turn shallow waiting held =>
    simp only [donateStatement, some.injEq, Prod.mk.injEq] at h
    obtain ⟨rfl, rfl⟩ := h
    split_ifs with he
    · refine (turn.stop fun _ => ?_).symm
      simp [donateStep, waiting, held, he]
    · exact Walk.setPriority turn shallow ⟨waiting, held, Int.not_le.mp he⟩
  | setPriority turn shallow raises =>
    simp only [donateStatement, some.injEq, Prod.mk.injEq] at h
    obtain ⟨rfl, rfl⟩ := h
    exact Walk.readStatus turn shallow raises
  | readStatus turn shallow raises =>
    simp only [donateStatement, some.injEq, Prod.mk.injEq] at h
    obtain ⟨rfl, rfl⟩ := h
    split_ifs with ready
    · exact Walk.remove turn shallow raises (by simpa using ready)
    · have next := turn.next shallow raises
      rw [raise, if_neg ready] at next
      exact Walk.test next
  | remove turn shallow raises ready =>
    simp only [donateStatement, some.injEq, Prod.mk.injEq] at h
    obtain ⟨rfl, rfl⟩ := h
    exact Walk.insert turn shallow raises ready
  | insert turn shallow raises ready =>
    simp only [donateStatement, some.injEq, Prod.mk.injEq] at h
    obtain ⟨rfl, rfl⟩ := h
    have next := turn.next shallow raises
    rw [raise, if_pos (by simpa using ready)] at next
    rw [turn.scheduled.unlink_ready ready]
    exact Walk.test next

end

/-! ## From the test of the holder to its use -/

/-- The holder a thread found in `lock_acquire` is still there when it follows the pointer. -/
def Window (k : Kernel) : Prop :=
  ∀ t l, ∀ i ∈ (k.thread t).stack, i.pushes l = true → k.holder l ≠ none

section
variable {k k' : Kernel}

theorem Window.recoded {code : List Instr} (hr : Recoded k k' code)
    (own : ∀ l, ∀ i ∈ code, i.pushes l = true → k'.holder l ≠ none)
    (others : ∀ t l, ∀ i ∈ (k.thread t).stack, i.pushes l = true → k'.holder l ≠ none) :
    Window k' := by
  intro t l i mem pushes
  by_cases h : t = k.current
  · subst h
    rw [hr.self] at mem
    exact own l i mem pushes
  · rcases hr.others t h with eq | ⟨_, eq⟩
    · exact others t l i (eq ▸ mem) pushes
    · rw [eq, mem_singleton] at mem
      simp [mem] at pushes

theorem Window.exec (window : Window k) (inv : Scheduled k) (h : k.exec = some k')
    (calm : ∀ l rest, (k.thread k.current).stack = .clearHolder l :: rest →
      ∀ t, ∀ i ∈ (k.thread t).stack, i.pushes l = false) : Window k' := by
  obtain ⟨i, rest, old, h⟩ := exec_eq h
  obtain ⟨new, he, hr⟩ := inv.emits h
  have hk : ∀ t l, ∀ j ∈ (k.thread t).stack, j.pushes l = true → k'.holder l ≠ none := by
    intro t l j mem pushes
    have was := window t l j mem pushes
    cases i with
    | setHolder l' =>
      cases h
      by_cases this : l = l' <;> simp [this, was]
    | clearHolder l' =>
      cases h
      by_cases this : l = l'
      · subst this
        cases (calm l rest old t j mem).symm.trans pushes
      · simpa [this] using was
    | _ =>
      rw [(execInstr_mlfqs h).2 (by simp)]
      exact was
  refine Window.recoded hr (fun l j mem pushes => ?_) hk
  rcases mem_append.mp mem with hf | hb
  · obtain rfl := he.pushes j hf pushes
    rw [(execInstr_mlfqs h).2 (by simp)]
    simp only [execInstr] at h
    split_ifs at h with self donates
    · exact donates.2
    · have code := hr.self
      rw [← some.inj h] at code
      have direct : [.semaDown (.ofLock l) false] = new :=
        append_cancel_right (by simpa using code)
      rw [← direct, mem_singleton] at hf
      simp [hf] at pushes
  · exact hk _ l j (old ▸ mem_cons_of_mem _ hb) pushes

theorem Window.step {e : Event} (window : Window k) (inv : Scheduled k) (h : k.step e = some k')
    (calm : e = .exec → ∀ l rest, (k.thread k.current).stack = .clearHolder l :: rest →
      ∀ t, ∀ i ∈ (k.thread t).stack, i.pushes l = false) : Window k' := by
  cases e with
  | call c =>
    simp only [Kernel.step] at h
    split_ifs at h with free
    cases h
    have hr : Recoded k (k.push c.code) (c.code ++ (k.thread k.current).stack) :=
      ⟨by simp, by simp +contextual⟩
    refine Window.recoded hr (fun l i mem pushes => ?_) window
    rcases mem_append.mp mem with hf | hb
    · cases c <;> simp_all [Call.code]
    · exact window _ l i hb pushes
  | exec => exact window.exec inv h (calm rfl)
  | interrupt i =>
    simp only [Kernel.step] at h
    split_ifs at h
    have holder := (interrupt_mlfqs h).2
    rcases interrupt_recoded h with hr | hr
    · exact Window.recoded hr (holder ▸ window _) (holder ▸ window)
    · refine Window.recoded hr (fun l i mem pushes => ?_) (holder ▸ window)
      rcases mem_cons.mp mem with rfl | hb
      · cases pushes
      · exact holder ▸ window _ l i hb pushes

theorem window_boot (mlfqs : Bool) (value : Nat → Nat) : Window (boot mlfqs value) := by
  have hp : ∀ t, ∀ i ∈ ((boot mlfqs value).thread t).stack, ∀ l, i.pushes l = false := by
    refine boot_cases mlfqs value (P := fun _ th => ∀ i ∈ th.stack, ∀ l, i.pushes l = false)
      ?_ ?_ ?_ <;> simp
  intro t l i mem pushes
  cases (hp t i mem l).symm.trans pushes

end

end Kernel

namespace Racing

open Kernel

section
variable {r r' : Racing} {rest : List Instr} {e : Event}

theorem step_donate (top : (r.kernel.thread r.kernel.current).stack = .donatePriority :: rest) :
    r.step .exec = r.donate rest := by
  simp [step, top]

theorem step_plain (ne : e = .exec → ∀ rest,
    (r.kernel.thread r.kernel.current).stack ≠ .donatePriority :: rest) :
    r.step e = (r.kernel.step e).map fun k => { r with kernel := k } := by
  unfold step
  split
  · exact absurd ‹_› (ne rfl _)
  · rfl

/-- Either nobody is inside `donate_priority`, or the running thread is, with no step of
another thread since it entered. -/
inductive Steady : Racing → Prop where
  | outside {k : Kernel} : Locking k → Window k → Steady ⟨k, fun _ => none⟩
  | inside {k0 k : Kernel} {place : DonateAt} {rest : List Instr} : Locking k0 → Window k0 →
      (k0.thread k0.current).stack = .donatePriority :: rest → Walk k0 place k →
      Steady ⟨k, Function.update (fun _ => none) k0.current (some place)⟩

theorem steady_boot (mlfqs : Bool) (value : Nat → Nat) : Steady (boot mlfqs value) :=
  .outside (locking_boot mlfqs value) (window_boot mlfqs value)

/-- The call ends in the state the instruction `donatePriority` leads to. -/
theorem exec_donatePriority {k : Kernel}
    (top : (k.thread k.current).stack = .donatePriority :: rest) :
    k.exec = some ((k.donatePriority k.current).withCode rest) := by
  have hm := withCode_donateLoop rest donationDepth k k.current
  simp only [exec, top, execInstr, some.injEq]
  exact hm

theorem Calm.unused {k : Kernel} {donor : ThreadPtr → Option DonateAt} (inv : Scheduled k)
    (calm : Calm ⟨k, donor⟩ .exec) (l : LockPtr) (rest : List Instr)
    (top : (k.thread k.current).stack = .clearHolder l :: rest) (t : ThreadPtr) :
    ∀ i ∈ (k.thread t).stack, i.pushes l = false := by
  intro i mem
  simp only [Calm, top] at calm
  have hb : t < k.created := by grind
  simpa using all_eq_true.mp (calm t hb) i mem

theorem Steady.step (hs : Steady r) (calm : Calm r e) (h : r.step e = some r') : Steady r' := by
  cases hs with
  | @outside k locking window =>
    by_cases enters : e = .exec ∧ ∃ rest, (k.thread k.current).stack = .donatePriority :: rest
    · obtain ⟨rfl, rest, top⟩ := enters
      rw [step_donate top] at h
      cases h
      exact .inside locking window top (.test (.begin locking.scheduled))
    · rw [step_plain fun exec rest top => enters ⟨exec, rest, top⟩] at h
      obtain ⟨k', ran, rfl⟩ := map_eq_some_iff.mp h
      refine .outside (locking.step ran) (window.step locking.scheduled ran ?_)
      rintro rfl
      exact Calm.unused locking.scheduled calm
  | @inside k0 k place rest locking window top walk =>
    have here : Racing.place ⟨k, Function.update (fun _ => none) k0.current (some place)⟩ =
        some place := by
      simp [Racing.place, walk.current]
    cases e with
    | call c => cases here.symm.trans calm
    | interrupt i => cases here.symm.trans calm
    | exec =>
      rw [step_donate (walk.code.trans top), donate, here] at h
      obtain ⟨⟨k', next⟩, stated, rfl⟩ := map_eq_some_iff.mp h
      have walks := walk.statement stated
      cases next with
      | some place' =>
        have eq : moveTo ⟨k, Function.update (fun _ => none) k0.current (some place)⟩
            (some place') = Function.update (fun _ => none) k0.current (some place') := by
          simp [moveTo, walk.current]
        simp only [eq]
        exact .inside locking window top walks
      | none =>
        have done := exec_donatePriority top
        have none : moveTo ⟨k, Function.update (fun _ => none) k0.current (some place)⟩
            none = fun _ => none := by
          simp [moveTo, walk.current]
        simp only [none]
        rw [show k' = _ from walks]
        refine .outside (locking.step (e := .exec) done) (window.exec locking.scheduled done ?_)
        intro l rest' ne
        cases top.symm.trans ne

theorem Steady.safe (steady : Steady r) : Safe r := by
  cases steady with
  | @outside k locking window =>
    refine ⟨fun l rest top => ?_, nofun, nofun, fun l rest r' top h u donor => ?_⟩
    · exact ne_none_iff_exists'.mp (window k.current l _ (top ▸ mem_cons_self) (by simp))
    · have hp := step_plain (r := ⟨k, fun _ => none⟩) (e := .exec) fun _ rest' ne => by
        cases top.symm.trans ne
      rw [hp] at h
      obtain ⟨k', stepped, rfl⟩ := map_eq_some_iff.mp h
      obtain ⟨i, rest', old, ran⟩ := exec_eq stepped
      cases top.symm.trans old
      rw [← some.inj ran] at donor
      obtain ⟨l', hw, _⟩ := locking.donors.donor u k.current (by simpa using donor)
      obtain ⟨r, eq⟩ | ⟨(eq | ⟨w, eq⟩), _⟩ := hw.first top <;> cases eq
  | @inside k0 k place rest locking window top walk =>
    have here : Racing.place ⟨k, Function.update (fun _ => none) k0.current (some place)⟩ =
        some place := by
      simp [Racing.place, walk.current]
    have code := walk.code.trans top
    refine ⟨fun l rest' ne => ?_, fun _ t depth l h _ at_ => ?_, fun _ t depth l h _ at_ => ?_,
      fun l rest' r' ne => ?_⟩
    · cases code.symm.trans ne
    · cases here.symm.trans at_
      cases walk with
      | readStatus turn shallow raises => exact raises.held
    · cases here.symm.trans at_
      cases walk with
      | remove turn shallow raises ready =>
        exact turn.scheduled.ready_mem (raises.busy turn.scheduled) ready
    · cases code.symm.trans ne

end

/-- If no interrupt comes inside `donate_priority`, and no `lock_release` clears the holder while
another thread is about to follow it, every statement finds what it relies on. -/
theorem donation_bookkeeping {mlfqs : Bool} {value : Nat → Nat} {history : List Event} {r : Racing}
    (run : Machine.Run step Calm (boot mlfqs value) history r) : Safe r := by
  have hs : Steady r := run.invariant (steady_boot mlfqs value)
    fun _ _ _ hs calm ran => hs.step calm ran
  exact hs.safe

/-- The initial thread takes a lock, and a thread of priority 40 donates to it, up to the
`list_remove` of `donate_priority`. -/
def donating : List Event :=
  replicate 7 .exec ++ .call (.lockAcquire 1) :: replicate 4 .exec ++
  .call (.threadCreate 40 true) :: replicate 19 .exec ++
  .call (.lockAcquire 1) :: replicate 9 .exec

/-- The next instruction of the running thread. -/
def first (r : Racing) : Option Instr := (r.kernel.thread r.kernel.current).stack.head?

def donates (r : Racing) : Bool := r.first.any fun
  | .donatePriority => true
  | _ => false

theorem donates_code {r : Racing} (h : r.donates = true) :
    ∃ rest, (r.kernel.thread r.kernel.current).stack = .donatePriority :: rest := by
  unfold donates first at h
  cases code : (r.kernel.thread r.kernel.current).stack with
  | nil => simp [code] at h
  | cons i rest => cases i <;> simp_all

theorem donation_bookkeeping_donating :
    ∃ r, Machine.runs step Calm (boot false fun _ => 0) donating = some r ∧
      r.place = some (.remove 2 0 1 mainThread) ∧ mainThread ∈ r.kernel.readyList := by
  have state : (Machine.runs step Calm (boot false fun _ => 0) donating).map
      (fun r => (r.place, r.donates)) = some (some (.remove 2 0 1 mainThread), true) := by
    decide +kernel
  obtain ⟨r, hr, seen⟩ := map_eq_some_iff.mp state
  obtain ⟨place, donates⟩ := Prod.mk.inj seen
  obtain ⟨rest, code⟩ := donates_code donates
  have safe := donation_bookkeeping (Machine.runs_run hr)
  exact ⟨r, hr, place, safe.moves rest 2 0 1 mainThread code place⟩

/-- The time slice of the running thread is over. -/
def slice : List Event := replicate 4 (.interrupt .timer)

/-- A thread finds that a lock has a holder, loses the CPU to the holder, which releases the
lock, and goes on. -/
def holderGone : List Event :=
  replicate 7 .exec ++ .call (.lockAcquire 1) :: replicate 4 .exec ++
  .call (.threadCreate 31 true) :: replicate 17 .exec ++
  .call .threadYield :: replicate 2 .exec ++
  .call (.lockAcquire 1) :: replicate 2 .exec ++ slice ++ .exec ::
  .call (.lockRelease 1) :: replicate 8 .exec ++
  .call .threadYield :: replicate 2 .exec

/-- The donor loses the CPU before it reads `holder->status`, and the holder releases the lock. -/
def lockGone : List Event :=
  donating.dropLast ++ slice ++ .exec :: .call (.lockRelease 1) :: replicate 11 .exec

/-- The donor has read that the holder is ready and loses the CPU. The holder runs and waits for
a semaphore. -/
def readyGone : List Event :=
  donating ++ slice ++ .exec :: .call (.semaDown 5) :: replicate 2 .exec

theorem donation_bookkeeping_races :
    (∃ r rest, Machine.runs step Machine.Free (boot false fun _ => 0) holderGone = some r ∧
      (r.kernel.thread r.kernel.current).stack = .pushDonation 1 :: rest ∧
      r.kernel.holder 1 = none ∧ ¬ Safe r) ∧
    (∃ r, Machine.runs step Machine.Free (boot false fun _ => 0) lockGone = some r ∧
      r.place = some (.readStatus 2 0 1 mainThread) ∧ r.kernel.holder 1 = none ∧ ¬ Safe r) ∧
    (∃ r, Machine.runs step Machine.Free (boot false fun _ => 0) readyGone = some r ∧
      r.place = some (.remove 2 0 1 mainThread) ∧ r.kernel.readyList = [] ∧ ¬ Safe r) := by
  refine ⟨?_, ?_, ?_⟩
  · have state : (Machine.runs step Machine.Free (boot false fun _ => 0) holderGone).map
        (fun r => (r.first.any fun | .pushDonation l => l == 1 | _ => false, r.kernel.holder 1)) =
        some (true, none) := by
      decide +kernel
    obtain ⟨r, hr, seen⟩ := map_eq_some_iff.mp state
    obtain ⟨pushes, free⟩ := Prod.mk.inj seen
    obtain ⟨rest, code⟩ : ∃ rest,
        (r.kernel.thread r.kernel.current).stack = .pushDonation 1 :: rest := by
      unfold first at pushes
      cases code : (r.kernel.thread r.kernel.current).stack with
      | nil => simp [code] at pushes
      | cons i rest => cases i <;> simp_all
    refine ⟨r, rest, hr, code, free, fun safe => ?_⟩
    obtain ⟨h, held⟩ := safe.holder 1 rest code
    cases free.symm.trans held
  · have state : (Machine.runs step Machine.Free (boot false fun _ => 0) lockGone).map
        (fun r => (r.place, r.kernel.holder 1, r.donates)) =
        some (some (.readStatus 2 0 1 mainThread), none, true) := by
      decide +kernel
    obtain ⟨r, hr, seen⟩ := map_eq_some_iff.mp state
    simp only [Prod.mk.injEq] at seen
    obtain ⟨place, free, donates⟩ := seen
    obtain ⟨rest, code⟩ := donates_code donates
    refine ⟨r, hr, place, free, fun safe => ?_⟩
    cases free.symm.trans (safe.status rest 2 0 1 mainThread code place)
  · have state : (Machine.runs step Machine.Free (boot false fun _ => 0) readyGone).map
        (fun r => (r.place, r.kernel.readyList, r.donates)) =
        some (some (.remove 2 0 1 mainThread), [], true) := by
      decide +kernel
    obtain ⟨r, hr, seen⟩ := map_eq_some_iff.mp state
    simp only [Prod.mk.injEq] at seen
    obtain ⟨place, none, donates⟩ := seen
    obtain ⟨rest, code⟩ := donates_code donates
    refine ⟨r, hr, place, none, fun safe => ?_⟩
    have mem := safe.moves rest 2 0 1 mainThread code place
    simp [none] at mem

end Racing

end Pintos.Threads
