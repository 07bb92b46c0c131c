import Pintos.Lib.Cursor
import Pintos.Threads.LockExclusion

/-!
# Donors under preemption

A thread is in a list of donors only inside `lock_acquire`, from the `list_push_back` to
the end of `sema_down`, and only while the owner of that list has the lock or is about to
sweep the list. So it is in no list once it has the lock.
-/

namespace Pintos.Threads

open List Option

/-- Instructions of `lock_acquire` and `lock_release` about the records of donors. -/
@[simp] def Instr.lends : Instr → Bool
  | .setWaiting _ | .pushDonation _ | .clearHolder _ | .removeDonations _ | .removeDonation .. =>
      true
  | _ => false

/-- What is left of `lock_acquire` and `lock_release` around the records of donors. -/
inductive Lending (mlfqs : Bool) : List Instr → Prop where
  | enters (l : LockPtr) : mlfqs = false → Lending mlfqs
      [.setWaiting l, .pushDonation l, .donatePriority, .semaDown (.ofLock l) false]
  | pushes (l : LockPtr) : mlfqs = false →
      Lending mlfqs [.pushDonation l, .donatePriority, .semaDown (.ofLock l) false]
  | clears (l : LockPtr) : Lending mlfqs (.clearHolder l ::
      ((if mlfqs then [] else [.removeDonations l, .updatePriority]) ++ [.semaUp (.ofLock l)]))
  | sweeps (l : LockPtr) :
      Lending mlfqs [.removeDonations l, .updatePriority, .semaUp (.ofLock l)]
  | sweepsAt (l : LockPtr) (e : Option ThreadPtr) :
      Lending mlfqs [.removeDonation l e, .updatePriority, .semaUp (.ofLock l)]

/-- Such code is on top, but for what a preempted thread resumes with. -/
def LendsOnTop (mlfqs : Bool) (code : List Instr) : Prop :=
  (∀ i ∈ code, i.lends = false) ∨ ∃ (pre : List Wake) (body rest : List Instr),
    code = pre.map .resume ++ (body ++ rest) ∧ Lending mlfqs body ∧ ∀ i ∈ rest, i.lends = false

/-- The thread is inside `sema_down` for lock `l`, or about to be. -/
def Queued (l : LockPtr) (code : List Instr) : Prop :=
  ∃ pre r rest, code = pre ++ .semaDown (.ofLock l) r :: rest ∧
    ∀ i ∈ pre, i = .donatePriority ∨ ∃ w, i = .resume w

/-- The next instruction of a thread's own, when it gets the CPU. -/
def Resumes (i : Instr) (code : List Instr) : Prop :=
  ∃ (pre : List Wake) (rest : List Instr), code = pre.map .resume ++ i :: rest

section
variable {mlfqs : Bool} {i j : Instr} {new rest code : List Instr} {l : LockPtr}

theorem Resumes.cons (resumes : Resumes j (i :: rest)) :
    i = j ∨ (∃ w, i = .resume w) ∧ Resumes j rest := by
  obtain ⟨pre, tail, eq⟩ := resumes
  cases pre with
  | nil => exact .inl (cons.inj eq).1
  | cons w pre => exact .inr ⟨⟨w, (cons.inj eq).1⟩, pre, tail, (cons.inj eq).2⟩

theorem Resumes.preempt (resumes : Resumes j code) (w : Wake) : Resumes j (.resume w :: code) := by
  obtain ⟨pre, tail, rfl⟩ := resumes
  exact ⟨w :: pre, tail, rfl⟩

theorem Resumes.mem (resumes : Resumes j code) : j ∈ code := by
  obtain ⟨pre, tail, rfl⟩ := resumes
  simp

theorem Queued.cons (queued : Queued l (i :: rest)) :
    (∃ r, i = .semaDown (.ofLock l) r) ∨
      (i = .donatePriority ∨ ∃ w, i = .resume w) ∧ Queued l rest := by
  obtain ⟨pre, r, tail, eq, hw⟩ := queued
  cases pre with
  | nil => exact .inl ⟨r, (cons.inj eq).1⟩
  | cons j pre =>
    obtain ⟨rfl, rfl⟩ := cons.inj eq
    exact .inr ⟨hw i (.head _), pre, r, tail, rfl, fun i h => hw i (.tail _ h)⟩

theorem Queued.preempt (queued : Queued l code) (w : Wake) : Queued l (.resume w :: code) := by
  obtain ⟨pre, r, tail, rfl, hw⟩ := queued
  refine ⟨.resume w :: pre, r, tail, rfl, fun i h => ?_⟩
  rcases mem_cons.mp h with rfl | h
  · exact .inr ⟨w, rfl⟩
  · exact hw i h

theorem LendsOnTop.preempt (top : LendsOnTop mlfqs code) (w : Wake) :
    LendsOnTop mlfqs (.resume w :: code) := by
  rcases top with hp | ⟨pre, body, tail, rfl, lending, hp⟩
  · exact .inl (by simpa using hp)
  · exact .inr ⟨w :: pre, body, tail, rfl, lending, hp⟩

/-- The top instruction is a resumption, or the first of such code, or there is none. -/
theorem LendsOnTop.cons (top : LendsOnTop mlfqs (i :: rest)) :
    (i.lends = false ∧ ∀ j ∈ rest, j.lends = false) ∨
    ((∃ w, i = .resume w) ∧ LendsOnTop mlfqs rest) ∨
    ∃ body tail, rest = body ++ tail ∧ Lending mlfqs (i :: body) ∧ ∀ j ∈ tail, j.lends = false := by
  rcases top with hp | ⟨pre, body, tail, eq, lending, hp⟩
  · exact .inl ⟨hp i (.head _), fun j h => hp j (.tail _ h)⟩
  · cases pre with
    | cons w pre =>
      obtain ⟨rfl, rfl⟩ := cons.inj eq
      exact .inr (.inl ⟨⟨w, rfl⟩, .inr ⟨pre, body, tail, rfl, lending, hp⟩⟩)
    | nil =>
      cases body with
      | nil => cases lending
      | cons b body => grind

theorem LendsOnTop.below (top : LendsOnTop mlfqs (i :: rest)) (hp : i.lends = false)
    (ne : ∀ w, i ≠ .resume w) : ∀ j ∈ rest, j.lends = false := by
  rcases top.cons with ⟨_, hb⟩ | ⟨⟨w, eq⟩, _⟩ | ⟨body, tail, _, lending, _⟩
  · exact hb
  · exact absurd eq (ne w)
  · cases lending <;> cases hp

/-- Code that a thread will come to next is followed by the rest of its operation. -/
theorem LendsOnTop.resumed (top : LendsOnTop mlfqs code) (resumes : Resumes j code)
    (lends : j.lends = true) : ∃ (pre : List Wake) (body tail : List Instr),
      code = pre.map .resume ++ (j :: body ++ tail) ∧ Lending mlfqs (j :: body) := by
  obtain ⟨pre, rest, rfl⟩ := resumes
  induction pre with
  | nil =>
    rcases top.cons with ⟨hp, _⟩ | ⟨⟨w, rfl⟩, _⟩ | ⟨body, tail, rfl, lending, _⟩
    · cases lends.symm.trans hp
    · cases lends
    · exact ⟨[], body, tail, rfl, lending⟩
  | cons w pre ih =>
    have hb : LendsOnTop mlfqs (pre.map .resume ++ j :: rest) := by
      rcases top.cons with ⟨_, hp⟩ | ⟨_, hb⟩ | ⟨body, tail, _, lending, _⟩
      · exact .inl hp
      · exact hb
      · cases lending
    obtain ⟨pre', body, tail, eq, lending⟩ := ih hb
    exact ⟨w :: pre', body, tail, by rw [map_cons, cons_append, eq]; rfl, lending⟩

theorem Emits.lends (he : Emits i new) (hp : i.lends = false) (acquire : ∀ l, i ≠ .lockAcquire l)
    (release : ∀ l, i ≠ .lockRelease l) : ∀ j ∈ new, j.lends = false := by
  cases he with
  | acquireDonates l | acquireDirect l => exact absurd rfl (acquire l)
  | releaseDonations l | releaseDirect l => exact absurd rfl (release l)
  | downTakes s r => cases s <;> simp [afterDown]
  | tryTakes s => cases s <;> simp [afterTryDown]
  | _ => simp_all

theorem LendsOnTop.emits (top : LendsOnTop mlfqs (i :: rest)) (he : Emits i new)
    (acquire : ∀ l, i ≠ .lockAcquire l) (release : ∀ l, i ≠ .lockRelease l) :
    LendsOnTop mlfqs (new ++ rest) := by
  rcases top.cons with ⟨hp, hb⟩ | ⟨⟨w, rfl⟩, hb⟩ | ⟨body, tail, rfl, lending, hp⟩
  · have hf := he.lends hp acquire release
    exact .inl fun j mem => (mem_append.mp mem).elim (hf j) (hb j)
  · cases he
    exact hb
  · cases lending with
    | enters l off =>
      cases he
      exact .inr ⟨[], _, tail, rfl, .pushes l off, hp⟩
    | pushes l off =>
      cases he
      exact .inl (by simpa using hp)
    | clears l =>
      cases he
      cases mlfqs with
      | true => exact .inl (by simpa using hp)
      | false => exact .inr ⟨[], _, tail, rfl, .sweeps l, hp⟩
    | sweeps l =>
      cases he with
      | removeDonations l e => exact .inr ⟨[], _, tail, rfl, .sweepsAt l e, hp⟩
    | sweepsAt l e =>
      cases he with
      | removeDone => exact .inl (by simpa using hp)
      | removeNext l d e => exact .inr ⟨[], _, tail, rfl, .sweepsAt l e, hp⟩

theorem Resumes.first (resumes : Resumes j (i :: rest)) (ne : ∀ w, i ≠ .resume w) : i = j :=
  resumes.cons.resolve_right fun ⟨⟨w, eq⟩, _⟩ => ne w eq

/-- A thread comes to its `list_push_back` from the statement before it. -/
theorem LendsOnTop.pushing (top : LendsOnTop mlfqs (i :: rest)) (he : Emits i new)
    (pushing : Resumes (.pushDonation l) (new ++ rest)) :
    i = .setWaiting l ∨ Resumes (.pushDonation l) (i :: rest) := by
  rcases top.cons with ⟨hp, hb⟩ | ⟨⟨w, rfl⟩, hb⟩ | ⟨body, tail, rfl, lending, hp⟩
  · have hf : ∀ l, i ≠ .lockAcquire l := by
      rintro l' rfl
      cases he with
      | acquireDonates => cases pushing.first nofun
      | acquireDirect => cases pushing.first nofun
    have released : ∀ l, i ≠ .lockRelease l := by
      rintro l' rfl
      cases he with
      | releaseDonations => cases pushing.first nofun
      | releaseDirect => cases pushing.first nofun
    rcases mem_append.mp pushing.mem with hi | below'
    · cases he.lends hp hf released _ hi
    · cases hb _ below'
  · cases he
    exact .inr (pushing.preempt w)
  · cases lending with
    | enters l' off =>
      cases he
      cases pushing.first nofun
      exact .inl rfl
    | pushes l' off =>
      cases he
      cases pushing.first nofun
    | clears l' =>
      cases he
      cases mlfqs <;> cases pushing.first nofun
    | sweeps l' =>
      cases he
      cases pushing.first nofun
    | sweepsAt l' e => cases he <;> cases pushing.first nofun

end

namespace Kernel

/-- What a thread waits for, and who donates to it. -/
def SameLending (k k' : Kernel) (t : ThreadPtr) : Prop :=
  (k'.thread t).waitingLock = (k.thread t).waitingLock ∧
    (k'.thread t).donations = (k.thread t).donations

theorem execInstr_lending {k k' : Kernel} {i : Instr} (h : k.execInstr i = some k')
    (ne : i.stirs = false ∨ ∃ w, i = .threadSleep w) (t : ThreadPtr) : SameLending k k' t := by
  rcases ne with calm | ⟨w, rfl⟩
  · exact lends_of_kept (execInstr_kept h calm) t
  · obtain ⟨waiting, donations⟩ := lends_of_kept (schedule_kept h) t
    exact ⟨waiting.trans (by simp), donations.trans (by simp)⟩

/-- A donor waits for `l` and has not got it. -/
def Registered (k : Kernel) (t : ThreadPtr) (l : LockPtr) : Prop :=
  (k.thread t).waitingLock = some l ∧ Queued l (k.thread t).stack

/-- The sweep of `h` for lock `l` has still to come to `t`. -/
def Sweeps (k : Kernel) (h : ThreadPtr) (l : LockPtr) (t : ThreadPtr) : Prop :=
  Resumes (.removeDonations l) (k.thread h).stack ∨
    ∃ e, Resumes (.removeDonation l (some e)) (k.thread h).stack ∧
      t ∈ Cursor.rest (k.thread h).donations (some e)

@[grind cases] structure Donors (k : Kernel) : Prop where
  code : ∀ t, LendsOnTop k.mlfqs (k.thread t).stack
  pushing : ∀ t l, Resumes (.pushDonation l) (k.thread t).stack →
    (k.thread t).waitingLock = some l
  nodup : ∀ h, (k.thread h).donations.Nodup
  donor : ∀ h t, t ∈ (k.thread h).donations →
    ∃ l, k.Registered t l ∧ (k.holder l = some h ∨ k.Sweeps h l t)
  unused : k.mlfqs = true → ∀ h, (k.thread h).donations = []

section
variable {k k' : Kernel} {code rest : List Instr} {i : Instr} {l : LockPtr} {t h : ThreadPtr}

theorem Registered.ne_nil (registered : k.Registered t l) : (k.thread t).stack ≠ [] := by
  obtain ⟨_, pre, r, rest, eq, _⟩ := registered
  simp [eq]

theorem Sweeps.ne_nil (sweeps : k.Sweeps h l t) : (k.thread h).stack ≠ [] := by
  rcases sweeps with resumes | ⟨e, resumes, _⟩ <;> exact ne_nil_of_mem resumes.mem

/-- The code of a thread that was not running, if it had any. -/
theorem Recoded.others_of (hr : Recoded k k' code) (inv : Scheduled k) (away : t ≠ k.current)
    (hb : (k.thread t).stack ≠ []) : (k'.thread t).stack = (k.thread t).stack ∧ t ≠ k.created := by
  grind

theorem Sweeps.other (sweeps : k.Sweeps h l t) (hr : Recoded k k' code) (inv : Scheduled k)
    (same : ∀ t, t ≠ k.created → t ≠ k.current → SameLending k k' t) (away : h ≠ k.current) :
    k'.Sweeps h l t := by
  obtain ⟨eq, hb⟩ := hr.others_of inv away sweeps.ne_nil
  unfold Sweeps
  rw [eq, (same h hb away).2]
  exact sweeps

/-- What a step has to keep that adds no donor. -/
theorem Donors.move (donors : Donors k) (inv : Scheduled k) (hr : Recoded k k' code)
    (mlfqs : k'.mlfqs = k.mlfqs)
    (same : ∀ t, t ≠ k.created → t ≠ k.current → SameLending k k' t)
    (fewer : ∀ h, (k'.thread h).donations.Sublist (k.thread h).donations)
    (top : LendsOnTop k.mlfqs code)
    (pushing : ∀ l, Resumes (.pushDonation l) code →
      (k'.thread k.current).waitingLock = some l)
    (registered : ∀ l h, k.current ∈ (k.thread h).donations → k.Registered k.current l →
      (k'.thread k.current).waitingLock = some l ∧ Queued l code)
    (held : ∀ h t l, t ∈ (k.thread h).donations → k.Registered t l → k.holder l = some h →
      k'.holder l = some h ∨ k'.Sweeps h l t)
    (sweeps : ∀ t l, t ∈ (k'.thread k.current).donations → k.Registered t l →
      k.Sweeps k.current l t → k'.Sweeps k.current l t) : Donors k' := by
  constructor
  case code =>
    intro t
    rw [mlfqs]
    by_cases hp : t = k.current
    · rw [hp, hr.self]; exact top
    · rcases hr.others t hp with eq | ⟨_, new⟩
      · rw [eq]; exact donors.code t
      · rw [new]; exact .inl (by simp)
  case pushing =>
    intro t l resumes
    by_cases hp : t = k.current
    · subst hp
      rw [hr.self] at resumes
      exact pushing l resumes
    · rcases hr.others t hp with eq | ⟨_, new⟩
      · rw [eq] at resumes
        have busy := ne_nil_of_mem resumes.mem
        rw [(same t (hr.others_of inv hp busy).2 hp).1]
        exact donors.pushing t l resumes
      · rw [new] at resumes
        simpa using resumes.mem
  case nodup => exact fun h => (donors.nodup h).sublist (fewer h)
  case donor =>
    intro h t member
    have was := (fewer h).subset member
    obtain ⟨l, hw, owner⟩ := donors.donor h t was
    refine ⟨l, ?_, ?_⟩
    · by_cases hp : t = k.current
      · subst hp
        obtain ⟨waiting, queued⟩ := registered l h was hw
        exact ⟨waiting, hr.self ▸ queued⟩
      · obtain ⟨eq, hb⟩ := hr.others_of inv hp hw.ne_nil
        exact ⟨(same t hb hp).1.trans hw.1, eq ▸ hw.2⟩
    · rcases owner with holds | sweep
      · exact held h t l was hw holds
      · by_cases hp : h = k.current
        · subst hp
          exact .inr (sweeps t l member hw sweep)
        · exact .inr (sweep.other hr inv same hp)
  case unused => grind

/-- A donor that runs is back from a preemption, or donates, or looks at the semaphore. -/
theorem Registered.first (hw : k.Registered k.current l) (old : k.Next i rest) :
    (∃ r, i = .semaDown (.ofLock l) r) ∨ (i = .donatePriority ∨ ∃ w, i = .resume w) ∧ Queued l rest
    := by
  have queued := hw.2
  rw [old] at queued
  exact queued.cons

theorem Sweeps.first (sweeps : k.Sweeps k.current l t) (old : k.Next i rest)
    (ne : ∀ w, i ≠ .resume w) : i = .removeDonations l ∨ ∃ e, i = .removeDonation l (some e) ∧ t ∈
    Cursor.rest (k.thread k.current).donations (some e) := by
  unfold Sweeps at sweeps
  rw [old] at sweeps
  rcases sweeps with resumes | ⟨e, resumes, ahead⟩
  · exact .inl (resumes.first ne)
  · exact .inr ⟨e, resumes.first ne, ahead⟩

theorem SameLending.popped (eq : SameLending (k.setStack k.current rest) k' t) :
    SameLending k k' t := by
  simpa [SameLending] using eq

section
variable {new : List Instr} (old : (k.thread k.current).stack = i :: rest)

include old

theorem Registered.goes_on (hw : k.Registered k.current l) (he : Emits i new)
    (ne : ∀ r, i ≠ .semaDown (.ofLock l) r) : Queued l (new ++ rest) := by
  rcases hw.first old with ⟨r, eq⟩ | ⟨rfl | ⟨w, rfl⟩, queued⟩
  · exact absurd eq (ne r)
  · cases he; exact queued
  · cases he; exact queued

theorem Sweeps.goes_on (sweeps : k.Sweeps k.current l t) (he : Emits i new)
    (hr : Recoded k k' (new ++ rest))
    (same : (k'.thread k.current).donations = (k.thread k.current).donations)
    (begins : i ≠ .removeDonations l) (turns : ∀ e, i ≠ .removeDonation l (some e)) :
    k'.Sweeps k.current l t := by
  by_cases wakes : ∃ w, i = .resume w
  · obtain ⟨w, rfl⟩ := wakes
    cases he
    unfold Sweeps at sweeps ⊢
    rw [hr.self, same]
    rw [old] at sweeps
    rcases sweeps with resumes | ⟨e, resumes, ahead⟩
    · exact .inl (resumes.cons.resolve_left nofun).2
    · exact .inr ⟨e, (resumes.cons.resolve_left nofun).2, ahead⟩
  · rcases sweeps.first old (fun w eq => wakes ⟨w, eq⟩) with eq | ⟨e, eq, _⟩
    · exact absurd eq begins
    · exact absurd eq (turns e)

/-- An instruction that keeps `waiting_lock` of the running thread. -/
theorem Donors.goes_on (donors : Donors k) (inv : Scheduled k) (he : Emits i new)
    (hr : Recoded k k' (new ++ rest)) (mlfqs : k'.mlfqs = k.mlfqs)
    (eq : ∀ t, t ≠ k.created → t ≠ k.current → SameLending k k' t)
    (waiting : (k'.thread k.current).waitingLock = (k.thread k.current).waitingLock)
    (fewer : ∀ h, (k'.thread h).donations.Sublist (k.thread h).donations)
    (keeps : ∀ l, i ≠ .setWaiting l) (top : LendsOnTop k.mlfqs (new ++ rest))
    (queued : ∀ l h, k.current ∈ (k.thread h).donations → k.Registered k.current l →
      Queued l (new ++ rest))
    (held : ∀ h t l, t ∈ (k.thread h).donations → k.Registered t l → k.holder l = some h →
      k'.holder l = some h ∨ k'.Sweeps h l t)
    (sweeps : ∀ t l, t ∈ (k'.thread k.current).donations → k.Registered t l →
      k.Sweeps k.current l t → k'.Sweeps k.current l t) : Donors k' := by
  have was := old ▸ donors.code k.current
  apply donors.move inv hr mlfqs eq fewer top _ _ held sweeps
  · intro l pushing
    rw [waiting]
    exact donors.pushing _ l (old ▸ (was.pushing he pushing).resolve_left (keeps l))
  · exact fun l h mem hw => ⟨waiting.trans hw.1, queued l h mem hw⟩

/-- An instruction that writes no holder and no record of donors. -/
theorem Donors.calm (donors : Donors k) (inv : Scheduled k) (h : k.Does i rest k')
    (he : Emits i new) (hr : Recoded k k' (new ++ rest))
    (calm : i.stirs = false ∨ ∃ w, i = .threadSleep w)
    (reads : ∀ l, i ≠ .setHolder l ∧ i ≠ .clearHolder l) (top : LendsOnTop k.mlfqs (new ++ rest))
    (queued : ∀ l h, k.current ∈ (k.thread h).donations → k.Registered k.current l →
      Queued l (new ++ rest))
    (sweeps : ∀ t l, t ∈ (k.thread k.current).donations → k.Sweeps k.current l t →
      k'.Sweeps k.current l t)
    : Donors k' := by
  obtain ⟨mlfqs, holder⟩ := execInstr_mlfqs h
  have eq : ∀ t, SameLending k k' t := fun t => (execInstr_lending h calm t).popped
  apply donors.goes_on old inv he hr mlfqs (fun t _ _ => eq t) (eq _).1
    (fun h => (eq h).2 ▸ .refl _) _ top queued
  · exact fun h t l _ _ held => .inl (holder reads ▸ held)
  · exact fun t l mem _ sweep => sweeps t l ((eq _).2 ▸ mem) sweep
  · rintro l rfl
    simp at calm

/-- One that is not of `sema_down` on a lock or of a sweep, either. -/
theorem Donors.leaves (donors : Donors k) (inv : Scheduled k) (h : k.Does i rest k')
    (calm : i.stirs = false ∨ ∃ w, i = .threadSleep w)
    (reads : ∀ l, i ≠ .setHolder l ∧ i ≠ .clearHolder l) (down : ∀ l r, i ≠ .semaDown (.ofLock l) r)
    (begins : ∀ l, i ≠ .removeDonations l) (turns : ∀ l e, i ≠ .removeDonation l (some e))
    (top : ∀ new, Emits i new → (k'.thread k.current).stack = new ++ rest →
      LendsOnTop k.mlfqs (new ++ rest))
    : Donors k' := by
  obtain ⟨new, he, hr⟩ := inv.emits h
  have eq := (execInstr_lending h calm k.current).popped
  exact donors.calm old inv h he hr calm reads (top new he hr.self)
    (fun l h _ hw => hw.goes_on old he (down l))
    fun t l _ sweeps => sweeps.goes_on old he hr eq.2 (begins l) (turns l)

end

/-- Instructions that write a holder or a record of donors, or open such code. -/
@[simp] def donorly : Instr → Bool
  | .semaDown (.ofLock _) _ | .setWaiting _ | .clearWaiting | .pushDonation _ | .setHolder _
  | .clearHolder _ | .removeDonations _ | .removeDonation _ (some _) | .lockAcquire _
  | .lockRelease _ | .initThread _ => true
  | _ => false

section
variable (donors : Donors k)
include donors

theorem Donors.plain (inv : Scheduled k) (old : k.Next i rest) (ne : donorly i = false)
    (h : k.Does i rest k') : Donors k' := by
  have calm : i.stirs = false ∨ ∃ w, i = .threadSleep w := by
    cases i with
    | threadSleep w => exact .inr ⟨w, rfl⟩
    | removeDonation l e => cases e <;> simp_all
    | _ => simp_all
  have top := old ▸ donors.code k.current
  refine donors.leaves old inv h calm ?_ ?_ ?_ ?_ fun new he _ => top.emits he ?_ ?_
  · exact fun l => ⟨by rintro rfl; simp at ne, by rintro rfl; simp at ne⟩
  · rintro l r rfl; simp at ne
  · rintro l rfl; simp at ne
  · rintro l e rfl; simp at ne
  · rintro l rfl; simp at ne
  · rintro l rfl; simp at ne

theorem Donors.lockAcquire (inv : Scheduled k) (old : k.Next (.lockAcquire l) rest)
    (h : k.Does (.lockAcquire l) rest k') : Donors k' := by
  have hp := (old ▸ donors.code k.current).below rfl nofun
  apply donors.leaves old inv h (.inl rfl) (by simp) nofun nofun nofun
  intro new he self
  rw [← self]
  simp only [Does, execInstr] at h
  split_ifs at h with self donate <;> cases h
  · have off : k.mlfqs = false := by simpa using donate.1
    exact .inr ⟨[], _, rest, by simp, .enters l off, hp⟩
  · exact .inl (by simpa using hp)

theorem Donors.lockRelease (inv : Scheduled k) (old : k.Next (.lockRelease l) rest)
    (h : k.Does (.lockRelease l) rest k') : Donors k' := by
  have hp := (old ▸ donors.code k.current).below rfl nofun
  apply donors.leaves old inv h (.inl rfl) (by simp) nofun nofun nofun
  intro new he self
  rw [← self]
  simp only [Does, execInstr] at h
  split_ifs at h with held <;> cases h <;>
    refine .inr ⟨[], _, rest, ?_, .clears l, hp⟩
  · have on : k.mlfqs = true := ‹_›
    simp [on]
  · have off : ¬ k.mlfqs = true := ‹_›
    simp [off]

/-- A thread that has still to sweep its list has still to up the semaphore. -/
theorem Donors.sweeper (sweeps : k.Sweeps h l t) : .semaUp (.ofLock l) ∈ (k.thread h).stack := by
  rcases sweeps with resumes | ⟨e, resumes, _⟩
  all_goals
    obtain ⟨pre, body, tail, eq, lending⟩ := (donors.code h).resumed resumes rfl
    rw [eq]
    cases lending
    simp

/-- Nobody donates for a lock that is free, or that has just been taken. -/
theorem Donors.no_donor {p : LockPhase} (phase : InPhase k l p)
    (free : p = .free ∨ ∃ c, p = .taken c) (hw : k.Registered t l) :
    t ∉ (k.thread h).donations := by
  intro mem
  obtain ⟨l', waits', owner⟩ := donors.donor h t mem
  obtain rfl : l' = l := some.inj (waits'.1.symm.trans hw.1)
  rcases owner with held | sweeps
  · have holder := (Prod.mk.inj phase.state).2
    rw [show k.holder l' = some h from held] at holder
    rcases free with rfl | ⟨c, rfl⟩ <;> cases holder
  · have mine : .semaUp (.ofLock l') ∈ (k.thread h).stack.filter (Instr.owns l') :=
      mem_filter.mpr ⟨donors.sweeper sweeps, by simp⟩
    rw [phase.code h] at mine
    rcases free with rfl | ⟨c, rfl⟩
    · cases mine
    · simp only [LockPhase.code] at mine
      split at mine <;> simp at mine

section
variable (inv : Scheduled k)
include inv

theorem Donors.semaDown {r : Bool} {p : LockPhase} (phase : InPhase k l p)
    (old : k.Next (.semaDown (.ofLock l) r) rest) (h : k.Does (.semaDown (.ofLock l) r) rest k') :
    Donors k' :=
    by
  obtain ⟨new, he, hr⟩ := inv.emits h
  have same := (execInstr_lending h (.inl rfl) k.current).popped
  have top := old ▸ donors.code k.current
  refine donors.calm old inv h he hr (.inl rfl) (by simp) (top.emits he nofun nofun)
    (fun l' h' mem hw => ?_)
    fun t l _ sweeps => sweeps.goes_on old he hr same.2 nofun nofun
  obtain ⟨r', eq⟩ | ⟨(eq | ⟨w, eq⟩), _⟩ := hw.first old <;> cases eq
  rw [← hr.self]
  simp only [Does, execInstr, Kernel.semaDown] at h
  split_ifs at h with zero
  · rw [schedule_stack h]
    exact ⟨[], true, rest, by simp, by simp⟩
  · exact absurd mem (donors.no_donor phase (.inl (phase.free_of_value zero)) hw)

theorem Donors.removeDonations (old : k.Next (.removeDonations l) rest)
    (h : k.Does (.removeDonations l) rest k') : Donors k' := by
  obtain ⟨new, he, hr⟩ := inv.emits h
  have top := old ▸ donors.code k.current
  refine donors.calm old inv h he hr (.inl rfl) (by simp) (top.emits he nofun nofun)
    (fun l h _ hw => hw.goes_on old he nofun) fun t l' mem sweeps => ?_
  obtain eq | ⟨e, eq, _⟩ := sweeps.first old nofun <;> cases eq
  cases h
  cases first : (k.thread k.current).donations.head? with
  | none => simp [head?_eq_none_iff.mp first] at mem
  | some e =>
    refine .inr ⟨e, ⟨[], rest, by simp [first]⟩, ?_⟩
    have ahead : t ∈ Cursor.rest (k.thread k.current).donations (some e) := by
      rw [← first, Cursor.rest_head]; exact mem
    simpa using ahead

theorem Donors.removeDonation {d : ThreadPtr} (old : k.Next (.removeDonation l (some d)) rest)
    (h : k.Does (.removeDonation l (some d)) rest k') : Donors k' := by
  obtain ⟨new, he, hr⟩ := inv.emits h
  have top := old ▸ donors.code k.current
  have mlfqs := (execInstr_mlfqs h).1
  have holder := (execInstr_mlfqs h).2 (by simp)
  simp only [Does, execInstr, some.injEq] at h
  have waiting : ∀ t, (k'.thread t).waitingLock = (k.thread t).waitingLock := by
    intro t; subst h; split <;> simp
  have others : ∀ t, t ≠ k.current → (k'.thread t).donations = (k.thread t).donations := by
    intro t away; subst h; split <;> simp [away]
  have own : (k'.thread k.current).donations =
      if (k.thread d).waitingLock = some l then (k.thread k.current).donations.erase d
      else (k.thread k.current).donations := by
    subst h; split <;> simp_all
  have self : (k'.thread k.current).stack =
      .removeDonation l (listNext (k.thread k.current).donations d) :: rest := by
    subst h; split <;> simp
  refine donors.goes_on old inv he hr mlfqs (fun t _ away => ⟨waiting t, others t away⟩)
    (waiting _) (fun h => ?_) (by simp) (top.emits he (by simp) (by simp))
    (fun l' h _ hw => hw.goes_on old he (by simp)) (fun h t l _ _ held => .inl (holder ▸ held))
    fun t l' mem hw sweeps => ?_
  · by_cases hp : h = k.current
    · rw [hp, own]
      split
      · exact erase_sublist
      · exact .refl _
    · rw [others h hp]
  · obtain eq | ⟨e, eq, ahead⟩ := sweeps.first old (by simp) <;> cases eq
    have nodup := donors.nodup k.current
    -- `t` is not the donor this turn is at, so it is still ahead
    have next : t ∈ Cursor.rest (k'.thread k.current).donations
        (listNext (k.thread k.current).donations d) := by
      rw [own] at mem ⊢
      by_cases goes : (k.thread d).waitingLock = some l
      · rw [if_pos goes] at mem ⊢
        exact Cursor.mem_rest_erase nodup ahead (nodup.mem_erase_iff.mp mem).1
      · rw [if_neg goes]
        have ne : t ≠ d := by rintro rfl; exact goes hw.1
        have hi := Cursor.mem_of_mem_rest ahead
        rw [Cursor.rest_eq_cons hi] at ahead
        have later := (mem_cons.mp ahead).resolve_left ne
        rw [← Cursor.rest_next nodup] at later
        exact later
    cases place : listNext (k.thread k.current).donations d with
    | none => rw [place] at next; cases next
    | some e =>
      rw [place] at next self
      exact .inr ⟨e, ⟨[], rest, self⟩, next⟩

/-- `waiting_lock` of the running thread, which is no donor. -/
theorem Donors.setOwn {w : Option LockPtr} (old : k.Next i rest) (he : Emits i [])
    (top : LendsOnTop k.mlfqs rest)
    (only : (∃ l, i = .setWaiting l ∧ w = some l) ∨ i = .clearWaiting)
    (h : k' = (k.setStack k.current rest).setWaiting k.current w) : Donors k' := by
  have hr : Recoded k k' rest := by
    subst h
    exact ⟨by simp [setWaiting], by simp +contextual [setWaiting]⟩
  have donations : ∀ t, (k'.thread t).donations = (k.thread t).donations := by
    intro t; subst h; simp [setWaiting]
  have others : ∀ t, t ≠ k.current → SameLending k k' t := by
    intro t away
    refine ⟨?_, donations t⟩
    subst h; simp [setWaiting, away]
  have was := old ▸ donors.code k.current
  refine donors.move inv hr (by subst h; rfl) (fun t _ away => others t away)
    (fun h => donations h ▸ .refl _) top (fun l pushing => ?_) (fun l h mem hw => ?_)
    (fun h' t l _ _ held => .inl (by subst h; exact held)) fun t l mem hw sweeps => ?_
  · have own : (k'.thread k.current).waitingLock = w := by subst h; simp [setWaiting]
    rw [own]
    rcases was.pushing he pushing with eq | resumes
    · grind
    · rcases only with ⟨l', rfl, _⟩ | rfl <;> cases resumes.first (by simp)
  · rcases only with ⟨l', rfl, _⟩ | rfl
    all_goals
      obtain ⟨r, eq⟩ | ⟨(eq | ⟨w, eq⟩), _⟩ := hw.first old <;> cases eq
  · rcases only with ⟨l', rfl, _⟩ | rfl
    all_goals
      rcases sweeps.first old (by simp) with eq | ⟨e, eq, _⟩ <;> cases eq

/-- A new holder of lock `l`, or none, when that suits the donors for `l`. -/
theorem Donors.writeHolder {w : Option ThreadPtr} (old : k.Next i rest) (he : Emits i [])
    (only : i = .setHolder l ∨ i = .clearHolder l)
    (eq : k' = (k.setStack k.current rest).setHolder l w)
    (owns : ∀ h t, t ∈ (k.thread h).donations → k.Registered t l → k.holder l = some h →
      k'.holder l = some h ∨ k'.Sweeps h l t)
    : Donors k' := by
  have same : ∀ t, SameLending k k' t := by
    intro t; subst eq; simp [SameLending]
  have hr : Recoded k k' rest := by
    subst eq; exact ⟨by simp, by simp +contextual⟩
  have top := old ▸ donors.code k.current
  refine donors.goes_on old inv he hr (by subst eq; rfl) (fun t _ _ => same t) (same _).1
    (fun h => (same h).2 ▸ .refl _) ?_ (top.emits he ?_ ?_)
    (fun l' h mem hw => hw.goes_on old he ?_) (fun h t l' mem hw held => ?_)
    fun t l' _ _ sweeps => sweeps.goes_on old he hr (same _).2 ?_ ?_
  case refine_5 =>
    by_cases this : l' = l
    · subst this
      exact owns h t mem hw held
    · left
      subst eq
      simpa [this] using held
  all_goals
    intros
    rintro rfl
    simp at only

theorem Donors.setHolder {p : LockPhase} (phase : InPhase k l p) (old : k.Next (.setHolder l) rest)
    (h : k.Does (.setHolder l) rest k') : Donors k' := by
  refine donors.writeHolder inv old (.setHolder l) (.inl rfl) (some.inj h).symm
    fun h t mem hw _ => ?_
  exact absurd mem
    (donors.no_donor phase (.inr ⟨_, (phase.taken_of_setHolder old).1⟩) hw)

/-- The holder that leaves the lock is about to sweep its list. -/
theorem Donors.clearHolder {p : LockPhase} (phase : InPhase k l p)
    (old : k.Next (.clearHolder l) rest) (h : k.Does (.clearHolder l) rest k') : Donors k' := by
  obtain ⟨rfl, _⟩ := phase.leaving_of_clearHolder old
  have self : (k'.thread k.current).stack = rest := by cases h; simp
  refine donors.writeHolder inv old (.clearHolder l) (.inr rfl) (some.inj h).symm
    fun h t mem hw held => ?_
  have holder : k.holder l = some k.current := (Prod.mk.inj phase.state).2
  obtain rfl : h = k.current := some.inj (held.symm.trans holder)
  have top := old ▸ donors.code k.current
  obtain ⟨hp, _⟩ | ⟨⟨w, eq⟩, _⟩ | ⟨body, tail, rfl, lending, _⟩ := top.cons
  · cases hp
  · cases eq
  · generalize mode : k.mlfqs = mlfqs at lending
    cases lending
    cases mlfqs with
    | true => rw [donors.unused mode] at mem; cases mem
    | false => exact .inr (.inl ⟨[], _, self⟩)

theorem Donors.initThread {p : Int} (old : k.Next (.initThread p) rest)
    (h : k.Does (.initThread p) rest k') : Donors k' := by
  obtain ⟨new, he, hr⟩ := inv.emits h
  have mlfqs := (execInstr_mlfqs h).1
  have holder := (execInstr_mlfqs h).2 (by simp)
  have top := old ▸ donors.code k.current
  have current : k.current ≠ k.created := Nat.ne_of_lt (inv.tidy.born inv.up)
  simp only [Does, execInstr] at h
  split_ifs at h
  have eq : ∀ t, t ≠ k.created → SameLending k k' t := by
    intro t ho
    cases h
    simp [SameLending, ho]
  have hf : (k'.thread k.created).donations = [] := by
    cases h
    simp [Kernel.initThread]
  refine donors.goes_on old inv he hr mlfqs (fun t ho _ => eq t ho)
    (eq _ current).1 (fun h => ?_) (by simp) (top.emits he (by simp) (by simp))
    (fun l' h _ hw => hw.goes_on old he (by simp))
    (fun h t l _ _ held => .inl (holder ▸ held))
    fun t l' _ _ sweeps => sweeps.goes_on old he hr (eq _ current).2 (by simp) (by simp)
  by_cases new : h = k.created
  · rw [new, hf]; exact nil_sublist _
  · rw [(eq h new).2]

end

/-- A waiter is put at the end of the list of the holder. -/
theorem Donors.add (off : k.mlfqs = false) (held : k.holder l = some h) (hw : k.Registered t l)
    (ha : ∀ h, t ∉ (k.thread h).donations) :
    Donors (k.modify h fun th => { th with donations := th.donations ++ [t] }) := by
  have donations : ∀ u, ((k.modify h fun th => { th with
      donations := th.donations ++ [t] }).thread u).donations =
        if u = h then (k.thread h).donations ++ [t] else (k.thread u).donations := by simp
  have registered : ∀ u l, k.Registered u l →
      (k.modify h fun th => { th with donations := th.donations ++ [t] }).Registered u l := by
    intro u l hw
    simpa [Registered] using hw
  constructor
  case code => simpa using donors.code
  case pushing => simpa using donors.pushing
  case nodup => grind
  case donor =>
    intro u d mem
    have known : d = t ∧ u = h ∨ d ∈ (k.thread u).donations := by grind
    rcases known with ⟨rfl, rfl⟩ | was
    · exact ⟨l, registered d l hw, .inl held⟩
    · obtain ⟨l', waits', owner⟩ := donors.donor u d was
      refine ⟨l', registered d l' waits', owner.imp_right fun sweeps => ?_⟩
      unfold Sweeps
      rw [donations]
      simp only [modify_stack_keep, implies_true]
      refine sweeps.imp_right fun ⟨e, resumes, ahead⟩ => ⟨e, resumes, ?_⟩
      split
      · rename_i eq
        exact Cursor.mem_rest_append (eq ▸ ahead)
      · exact ahead
  case unused =>
    intro on
    cases off.symm.trans on

theorem Donors.pushDonation (inv : Scheduled k) (old : k.Next (.pushDonation l) rest)
    (h : k.Does (.pushDonation l) rest k') : Donors k' := by
  obtain ⟨holder, held, rfl⟩ := map_eq_some_iff.mp h
  have he : Emits (.pushDonation l) [] := .pushDonation l
  have hr : Recoded k (k.setStack k.current rest) rest := ⟨by simp, by simp +contextual⟩
  have same : ∀ t, SameLending k (k.setStack k.current rest) t := by simp [SameLending]
  have top := donors.code k.current
  rw [old] at top
  have popped : Donors (k.setStack k.current rest) :=
    donors.goes_on old inv he hr rfl (fun t _ _ => same t) (same _).1
      (fun h => (same h).2 ▸ .refl _) nofun (top.emits he nofun nofun)
      (fun l' h _ hw => hw.goes_on old he nofun) (fun h t l _ _ held => .inl held)
      fun t l' _ _ sweeps => sweeps.goes_on old he hr (same _).2 nofun nofun
  have ha : ∀ h, k.current ∉ (k.thread h).donations := by
    intro h mem
    obtain ⟨l', hw, _⟩ := donors.donor h _ mem
    obtain ⟨r, eq⟩ | ⟨(eq | ⟨w, eq⟩), _⟩ := hw.first old <;> cases eq
  have waiting := donors.pushing k.current l ⟨[], rest, old⟩
  obtain ⟨hp, _⟩ | ⟨⟨w, eq⟩, _⟩ | ⟨body, tail, rfl, lending, _⟩ := top.cons
  · cases hp
  · cases eq
  · cases lending with
    | pushes _ off =>
      refine popped.add off held ⟨by simpa using waiting, ?_⟩ (by simpa using ha)
      exact ⟨[.donatePriority], false, tail, by simp, by simp⟩

end

theorem interrupt_lending {i : Interrupt} (h : k.interrupt i = some k') (t : ThreadPtr) :
    SameLending k k' t := by
  cases i with
  | timer =>
    obtain ⟨k1, yield, ticked, yields⟩ := timer_eq h
    have hk := timerInterrupt_kept ticked
    have same : SameLending k k1 t := by
      simp only [Kernel.kept, Prod.mk.injEq] at hk
      exact Prod.mk.inj (congrArg Prod.snd (congrFun hk.2.2 t))
    rcases yields with yields | rfl
    · obtain ⟨waiting, donations⟩ := lends_of_kept (threadYield_kept yields) t
      exact ⟨waiting.trans same.1, donations.trans same.2⟩
    · exact same
  | semaTryDown n =>
    obtain ⟨value, eq⟩ := semaTryDown_named k n
    rw [← some.inj h, eq]
    exact ⟨rfl, rfl⟩
  | semaUp n => exact lends_of_kept (semaUp_kept h) t
  | threadUnblock u =>
    simp only [Kernel.interrupt] at h
    split_ifs at h
    exact lends_of_kept (threadUnblock_kept h) t

theorem Donors.interrupt {i : Interrupt} (donors : Donors k) (inv : Scheduled k)
    (h : k.interrupt i = some k') : Donors k' := by
  obtain ⟨mlfqs, holder⟩ := interrupt_mlfqs h
  have eq := interrupt_lending h
  have fewer : ∀ h, (k'.thread h).donations.Sublist (k.thread h).donations :=
    fun h => (eq h).2 ▸ .refl _
  rcases interrupt_recoded h with hr | hr
  · refine donors.move inv hr mlfqs (fun t _ _ => eq t) fewer (donors.code _)
      (fun l pushing => ?_) (fun l h _ hw => ⟨(eq _).1.trans hw.1, hw.2⟩)
      (fun h t l _ _ held => .inl (holder ▸ held)) fun t l mem hw sweeps => ?_
    · rw [(eq _).1]; exact donors.pushing _ l pushing
    · unfold Sweeps
      rw [hr.self, (eq _).2]
      exact sweeps
  · refine donors.move inv hr mlfqs (fun t _ _ => eq t) fewer ((donors.code _).preempt _)
      (fun l pushing => ?_) (fun l h _ hw => ⟨(eq _).1.trans hw.1, hw.2.preempt _⟩)
      (fun h t l _ _ held => .inl (holder ▸ held)) fun t l mem hw sweeps => ?_
    · rw [(eq _).1]
      exact donors.pushing _ l (pushing.cons.resolve_left nofun).2
    · unfold Sweeps
      rw [hr.self, (eq _).2]
      exact sweeps.imp (·.preempt _) fun ⟨e, resumes, ahead⟩ => ⟨e, resumes.preempt _, ahead⟩

theorem Donors.call {c : Call} (donors : Donors k) (inv : Scheduled k)
    (free : k.inThreadCode = true) : Donors (k.push c.code) := by
  have empty := stack_eq_nil free
  have hr : Recoded k (k.push c.code) c.code := ⟨by simp [empty], by simp +contextual⟩
  have eq : ∀ t, SameLending k (k.push c.code) t := by simp [SameLending]
  have hp : ∀ j ∈ c.code, j.lends = false := by
    cases c <;> simp [Call.code]
  apply donors.move inv hr rfl (fun t _ _ => eq t) (fun h => (eq h).2 ▸ .refl _) (.inl hp)
  · intro l pushing
    cases hp _ pushing.mem
  · exact fun l h _ hw => absurd empty hw.ne_nil
  · exact fun h t l _ _ held => .inl held
  · exact fun t l _ _ sweeps => absurd empty sweeps.ne_nil

theorem Donors.exec (donors : Donors k) (inv : Scheduled k) (phases : ∀ l, ∃ p, InPhase k l p)
    (h : k.exec = some k') : Donors k' := by
  obtain ⟨i, rest, old, h⟩ := exec_eq h
  have top := donors.code k.current
  rw [old] at top
  cases ne : donorly i with
  | false => exact donors.plain inv old ne h
  | true =>
    cases i with
    | semaDown s r =>
      cases s with
      | ofLock l =>
        obtain ⟨p, phase⟩ := phases l
        exact donors.semaDown inv phase old h
      | _ => cases ne
    | setWaiting l =>
      exact donors.setOwn inv old (.setWaiting l) (top.emits (.setWaiting l) nofun nofun)
        (.inl ⟨l, rfl, rfl⟩) (some.inj h).symm
    | clearWaiting =>
      exact donors.setOwn inv old .clearWaiting (top.emits .clearWaiting nofun nofun) (.inr rfl)
        (some.inj h).symm
    | pushDonation l => exact donors.pushDonation inv old h
    | setHolder l =>
      obtain ⟨p, phase⟩ := phases l
      exact donors.setHolder inv phase old h
    | clearHolder l =>
      obtain ⟨p, phase⟩ := phases l
      exact donors.clearHolder inv phase old h
    | removeDonations l => exact donors.removeDonations inv old h
    | removeDonation l e =>
      cases e with
      | none => cases ne
      | some d => exact donors.removeDonation inv old h
    | lockAcquire l => exact donors.lockAcquire inv old h
    | lockRelease l => exact donors.lockRelease inv old h
    | initThread p => exact donors.initThread inv old h
    | _ => cases ne

theorem Donors.step {e : Event} (donors : Donors k) (inv : Scheduled k)
    (phases : ∀ l, ∃ p, InPhase k l p) (h : k.step e = some k') : Donors k' := by
  cases e with
  | call c =>
    simp only [Kernel.step] at h
    split_ifs at h with free
    cases h
    exact donors.call inv free
  | exec => exact donors.exec inv phases h
  | interrupt i =>
    simp only [Kernel.step] at h
    split_ifs at h
    exact donors.interrupt inv h

end

theorem donors_boot (mlfqs : Bool) (value : Nat → Nat) : Donors (boot mlfqs value) := by
  have hp : ∀ t, ∀ i ∈ ((boot mlfqs value).thread t).stack, i.lends = false := by
    refine boot_cases mlfqs value (P := fun _ th => ∀ i ∈ th.stack, i.lends = false)
      ?_ ?_ ?_ <;> simp
  have none : ∀ h, ((boot mlfqs value).thread h).donations = [] := by
    refine boot_cases mlfqs value (P := fun _ th => th.donations = []) ?_ ?_ ?_ <;> simp
  constructor
  case code => exact fun t => .inl (hp t)
  case pushing =>
    intro t l resumes
    cases hp t _ resumes.mem
  all_goals simp [none]

/-- The invariants of locks and donors together. -/
structure Locking (k : Kernel) : Prop where
  scheduled : Scheduled k
  nested : ∀ t, Nested (k.thread t).stack
  phases : ∀ l, ∃ p, InPhase k l p
  donors : Donors k

theorem Locking.step {k k' : Kernel} {e : Event} (locking : Locking k) (h : k.step e = some k') :
    Locking k' where
  scheduled := locking.scheduled.step h
  nested := Flows.invariant locking.scheduled (fun _ _ => Nested.flows) (by simp [Nested])
    locking.nested h
  phases l := by
    obtain ⟨p, phase⟩ := locking.phases l
    obtain ⟨p', phase', _⟩ := phase.step locking.scheduled (locking.nested _) h
    exact ⟨p', phase'⟩
  donors := locking.donors.step locking.scheduled locking.phases h

theorem locking_boot (mlfqs : Bool) (value : Nat → Nat) : Locking (boot mlfqs value) where
  scheduled := scheduled_boot mlfqs value
  nested := nested_boot mlfqs value
  phases l := ⟨.free, inPhase_boot mlfqs value l⟩
  donors := donors_boot mlfqs value

end Kernel

end Pintos.Threads
