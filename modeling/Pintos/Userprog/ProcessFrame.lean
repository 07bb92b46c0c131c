import Pintos.Userprog.Process

/-!
# What a step of a process does

The pointers a program counter holds, the cases of a step, and what a step
leaves alone of the processes and records there were.
-/

namespace Pintos.Userprog

open Threads (ThreadPtr listNext)

/-- The record a `process_execute` has in no list. -/
def Pc.loose : Pc → Option CiPtr
  | .threadCreate ci | .storeTid ci _ | .pushBack ci _ | .free ci => some ci
  | _ => none

/-- The record a `process_execute` has not put in a list yet. -/
def Pc.unlinked : Pc → Option CiPtr
  | .threadCreate ci | .storeTid ci _ | .pushBack ci _ => some ci
  | _ => none

/-- The record a `process_execute` has put in the list. -/
def Pc.linked : Pc → Option CiPtr
  | .loadDown ci _ | .loadCheck ci _ | .remove ci => some ci
  | _ => none

/-- The record a `process_wait` is at. -/
def Pc.awaits : Pc → Option CiPtr
  | .waitTest _ (some ci) | .waitCheck _ ci | .waitDown _ ci | .waitRead _ ci => some ci
  | _ => none

/-- The record the search of a `process_exit` is at. -/
def Pc.walks : Pc → Option CiPtr
  | .searchTest _ (some ci) | .searchNext _ ci | .storeStatus ci | .waitUp ci => some ci
  | _ => none

/-- The parent whose list a `process_exit` is about to read. -/
def Pc.finds : Pc → Option ThreadPtr
  | .searchBegin found => some found
  | _ => none

/-- The child whose loading a `process_execute` waits for or is about to wait for. -/
def Pc.making : Pc → Option Tid
  | .storeTid _ tid | .pushBack _ tid | .loadDown _ tid => some tid
  | _ => none

/-- The process in whose frame the argument of `start_process` lies. -/
def Pc.aux : Pc → Option ThreadPtr
  | .start aux | .load aux | .storeSuccess aux _ | .loadUp aux _ => some aux
  | _ => none

/-- The record a `process_exit` has found. -/
def Pc.posts : Pc → Option CiPtr
  | .storeStatus ci | .waitUp ci => some ci
  | _ => none

def Event.actor : Event → ThreadPtr
  | .request t _ | .exec t _ => t

namespace System

def pcs (k : System) (t : ThreadPtr) : Pc := (k.process t).pc

section
variable {k k' : System} {t : ThreadPtr}

/-- What the next step of `t`, or a request from its program, can be. -/
inductive Steps (k : System) (t : ThreadPtr) : System → Prop
  | execute (here : k.pcs t = .running) : Steps k t (k.goto t .allocate)
  | wait (tid : Tid) (here : k.pcs t = .running) :
      Steps k t (k.goto t (.waitTest tid (k.process t).children.head?))
  | exit (status : Option Int) (here : k.pcs t = .running) :
      Steps k t (k.modify t fun p => { p with
        exitStatus := status.getD p.exitStatus, pc := .lookup })
  -- `process_execute`
  | outOfMemory (here : k.pcs t = .allocate) : Steps k t (k.goto t .running)
  | allocate (here : k.pcs t = .allocate) :
      Steps k t { k.modify t (fun p => { p with
          aux := { parentTid := p.tid }, pc := .threadCreate k.allocated }) with
        info := Function.update k.info k.allocated { live := true }
        allocated := k.allocated + 1 }
  | notCreated (ci : CiPtr) (here : k.pcs t = .threadCreate ci) :
      Steps k t ((k.modifyInfo ci fun r => { r with live := false }).goto t .running)
  | create (ci : CiPtr) (here : k.pcs t = .threadCreate ci) :
      Steps k t { (k.goto t (.storeTid ci k.nextTid)).modify k.created
          (fun _ => { tid := k.nextTid, live := true, pc := .start t }) with
        created := k.created + 1, allList := k.allList ++ [k.created], nextTid := k.nextTid + 1 }
  | storeTid (ci : CiPtr) (tid : Tid) (here : k.pcs t = .storeTid ci tid) :
      Steps k t ((k.modifyInfo ci fun r => { r with tid }).goto t (.pushBack ci tid))
  | pushBack (ci : CiPtr) (tid : Tid) (here : k.pcs t = .pushBack ci tid) :
      Steps k t (k.modify t fun p => { p with
        children := p.children ++ [ci], pc := .loadDown ci tid })
  | loadDown (ci : CiPtr) (tid : Tid) (here : k.pcs t = .loadDown ci tid)
      (up : (k.process t).aux.loadSema ≠ 0) :
      Steps k t (k.modify t fun p => { p with
        aux := { p.aux with loadSema := (k.process t).aux.loadSema - 1 }, pc := .loadCheck ci tid })
  | loaded (ci : CiPtr) (tid : Tid) (here : k.pcs t = .loadCheck ci tid)
      (success : (k.process t).aux.loadSuccess = true) : Steps k t (k.goto t .running)
  | notLoaded (ci : CiPtr) (tid : Tid) (here : k.pcs t = .loadCheck ci tid)
      (failure : (k.process t).aux.loadSuccess = false) : Steps k t (k.goto t (.remove ci))
  | remove (ci : CiPtr) (here : k.pcs t = .remove ci) :
      Steps k t (k.modify t fun p => { p with children := p.children.erase ci, pc := .free ci })
  | free (ci : CiPtr) (here : k.pcs t = .free ci) :
      Steps k t ((k.modifyInfo ci fun r => { r with live := false }).goto t .running)
  -- `start_process`
  | start (aux : ThreadPtr) (here : k.pcs t = .start aux) :
      Steps k t (k.modify t fun p => { p with
        parentTid := (k.process aux).aux.parentTid, pc := .load aux })
  | load (aux : ThreadPtr) (ok : Bool) (here : k.pcs t = .load aux) :
      Steps k t (k.goto t (.storeSuccess aux ok))
  | storeSuccess (aux : ThreadPtr) (success : Bool) (here : k.pcs t = .storeSuccess aux success) :
      Steps k t ((k.modify aux fun p => { p with
        aux := { p.aux with loadSuccess := success } }).goto t (.loadUp aux success))
  | loadUp (aux : ThreadPtr) (success : Bool) (here : k.pcs t = .loadUp aux success) :
      Steps k t ((k.modify aux fun p => { p with
        aux := { p.aux with loadSema := p.aux.loadSema + 1 } }).goto t
          (if success then .running else .lookup))
  -- `process_wait`
  | waitEnd (tid : Tid) (here : k.pcs t = .waitTest tid none) : Steps k t (k.goto t .running)
  | waitHere (tid : Tid) (ci : CiPtr) (here : k.pcs t = .waitTest tid (some ci))
      (same : (k.info ci).tid = tid) : Steps k t (k.goto t (.waitCheck tid ci))
  | waitNext (tid : Tid) (ci : CiPtr) (here : k.pcs t = .waitTest tid (some ci))
      (other : (k.info ci).tid ≠ tid) :
      Steps k t (k.goto t (.waitTest tid (listNext (k.process t).children ci)))
  | waitAgain (tid : Tid) (ci : CiPtr) (here : k.pcs t = .waitCheck tid ci)
      (waited : (k.info ci).waited = true) : Steps k t (k.goto t .running)
  | waitFirst (tid : Tid) (ci : CiPtr) (here : k.pcs t = .waitCheck tid ci)
      (unwaited : (k.info ci).waited = false) :
      Steps k t ((k.modifyInfo ci fun r => { r with waited := true }).goto t (.waitDown tid ci))
  | waitDown (tid : Tid) (ci : CiPtr) (here : k.pcs t = .waitDown tid ci)
      (up : (k.info ci).waitSema ≠ 0) :
      Steps k t ((k.modifyInfo ci fun r => { r with waitSema := (k.info ci).waitSema - 1 }).goto t
        (.waitRead tid ci))
  | waitRead (tid : Tid) (ci : CiPtr) (here : k.pcs t = .waitRead tid ci) :
      Steps k t (k.goto t .running)
  -- `process_exit`
  | orphan (here : k.pcs t = .lookup) (missing : k.findThreadByTid (k.process t).parentTid = none) :
      Steps k t (k.goto t .exitDone)
  | lookup (found : ThreadPtr) (here : k.pcs t = .lookup)
      (present : k.findThreadByTid (k.process t).parentTid = some found) :
      Steps k t (k.goto t (.searchBegin found))
  | searchBegin (found : ThreadPtr) (here : k.pcs t = .searchBegin found) :
      Steps k t (k.goto t (.searchTest found (k.process found).children.head?))
  | searchEnd (found : ThreadPtr) (here : k.pcs t = .searchTest found none) :
      Steps k t (k.goto t .exitDone)
  | searchHere (found : ThreadPtr) (ci : CiPtr) (here : k.pcs t = .searchTest found (some ci))
      (same : (k.info ci).tid = (k.process t).tid) : Steps k t (k.goto t (.storeStatus ci))
  | searchPast (found : ThreadPtr) (ci : CiPtr) (here : k.pcs t = .searchTest found (some ci))
      (other : (k.info ci).tid ≠ (k.process t).tid) : Steps k t (k.goto t (.searchNext found ci))
  | searchNext (found : ThreadPtr) (ci : CiPtr) (here : k.pcs t = .searchNext found ci) :
      Steps k t (k.goto t (.searchTest found (listNext (k.process found).children ci)))
  | storeStatus (ci : CiPtr) (here : k.pcs t = .storeStatus ci) :
      Steps k t ((k.modifyInfo ci fun r => { r with exitStatus := (k.process t).exitStatus }).goto t
        (.waitUp ci))
  | waitUp (ci : CiPtr) (here : k.pcs t = .waitUp ci) :
      Steps k t ((k.modifyInfo ci fun r => { r with waitSema := r.waitSema + 1 }).goto t .exitDone)
  | exitDone (here : k.pcs t = .exitDone) :
      Steps k t { k.modify t (fun p => { p with
          live := decide (t = initialThread), pc := .gone }) with
        allList := k.allList.erase t }

theorem execPc_steps {ok : Bool} (h : k.execPc t ok (k.process t).pc = some k') : Steps k t k' := by
  cases pc : (k.process t).pc with
  | running | gone =>
    rw [pc] at h
    cases h
  | allocate =>
    rw [pc] at h
    simp only [execPc, Option.some.injEq] at h
    split_ifs at h <;> subst h
    · exact .allocate pc
    · exact .outOfMemory pc
  | threadCreate ci =>
    rw [pc] at h
    simp only [execPc, Option.some.injEq] at h
    split_ifs at h <;> subst h
    · exact .create ci pc
    · exact .notCreated ci pc
  | loadDown ci tid =>
    rw [pc] at h
    simp only [execPc] at h
    split_ifs at h with down
    cases h
    exact .loadDown ci tid pc down
  | loadCheck ci tid =>
    rw [pc] at h
    cases h
    split
    · exact .loaded ci tid pc ‹_›
    · exact .notLoaded ci tid pc (Bool.eq_false_iff.mpr ‹_›)
  | waitTest tid e =>
    rw [pc] at h
    cases e with
    | none =>
      cases h
      exact .waitEnd tid pc
    | some ci =>
      cases h
      split
      · exact .waitHere tid ci pc ‹_›
      · exact .waitNext tid ci pc ‹_›
  | waitCheck tid ci =>
    rw [pc] at h
    simp only [execPc, Option.some.injEq] at h
    split_ifs at h with waited <;> subst h
    · exact .waitAgain tid ci pc waited
    · exact .waitFirst tid ci pc (Bool.eq_false_iff.mpr waited)
  | waitDown tid ci =>
    rw [pc] at h
    simp only [execPc] at h
    split_ifs at h with down
    cases h
    exact .waitDown tid ci pc down
  | lookup =>
    rw [pc] at h
    cases h
    split
    · exact .orphan pc ‹_›
    · exact .lookup _ pc ‹_›
  | searchTest found e =>
    rw [pc] at h
    cases e with
    | none =>
      cases h
      exact .searchEnd found pc
    | some ci =>
      cases h
      split
      · exact .searchHere found ci pc ‹_›
      · exact .searchPast found ci pc ‹_›
  | storeTid ci tid => rw [pc] at h; cases h; exact .storeTid ci tid pc
  | pushBack ci tid => rw [pc] at h; cases h; exact .pushBack ci tid pc
  | remove ci => rw [pc] at h; cases h; exact .remove ci pc
  | free ci => rw [pc] at h; cases h; exact .free ci pc
  | start aux => rw [pc] at h; cases h; exact .start aux pc
  | load aux => rw [pc] at h; cases h; exact .load aux ok pc
  | storeSuccess aux success => rw [pc] at h; cases h; exact .storeSuccess aux success pc
  | loadUp aux success => rw [pc] at h; cases h; exact .loadUp aux success pc
  | waitRead tid ci => rw [pc] at h; cases h; exact .waitRead tid ci pc
  | searchBegin found => rw [pc] at h; cases h; exact .searchBegin found pc
  | searchNext found ci => rw [pc] at h; cases h; exact .searchNext found ci pc
  | storeStatus ci => rw [pc] at h; cases h; exact .storeStatus ci pc
  | waitUp ci => rw [pc] at h; cases h; exact .waitUp ci pc
  | exitDone => rw [pc] at h; cases h; exact .exitDone pc

theorem step_steps {e : Event} (h : k.step e = some k') :
    e.actor < k.created ∧ Steps k e.actor k' := by
  cases e with
  | request t r =>
    simp only [System.step] at h
    split_ifs at h with hi
    cases h
    refine ⟨hi.1, ?_⟩
    cases r with
    | execute => exact .execute hi.2
    | wait tid => exact .wait tid hi.2
    | exit status => exact .exit status hi.2
  | exec t ok =>
    simp only [System.step] at h
    split_ifs at h with hb
    unfold System.exec at h
    split_ifs at h
    exact ⟨hb, execPc_steps h⟩

/-- What a step with program counter `pc` may change of a record. -/
@[grind cases] structure Kept (pc : Pc) (ci : CiPtr) (r r' : ChildInfo) : Prop where
  tid : r'.tid = r.tid ∨ pc.unlinked = some ci
  waited : r'.waited = r.waited ∨ pc.awaits = some ci
  waitSema : r'.waitSema = r.waitSema ∨ pc.awaits = some ci ∨ pc.posts = some ci
  exitStatus : r'.exitStatus = r.exitStatus ∨ pc.posts = some ci

theorem Kept.refl (pc : Pc) (ci : CiPtr) (r : ChildInfo) : Kept pc ci r r :=
  ⟨.inl rfl, .inl rfl, .inl rfl, .inl rfl⟩

/-- What a step of `t` leaves alone in the processes and records there were. -/
@[grind cases] structure Frame (k k' : System) (t : ThreadPtr) : Prop where
  created : k.created ≤ k'.created
  allocated : k.allocated ≤ k'.allocated
  listed : ∀ u < k.created, u ∈ k'.allList → u ∈ k.allList
  tid : ∀ u < k.created, (k'.process u).tid = (k.process u).tid
  parentTid : ∀ u < k.created, u ≠ t → (k'.process u).parentTid = (k.process u).parentTid
  exitStatus : ∀ u < k.created, u ≠ t → (k'.process u).exitStatus = (k.process u).exitStatus
  children : ∀ u < k.created, u ≠ t → (k'.process u).children = (k.process u).children
  pc : ∀ u < k.created, u ≠ t → (k'.process u).pc = (k.process u).pc
  aux : ∀ u < k.created, u ≠ t → (k.pcs t).aux ≠ some u →
    (k'.process u).aux = (k.process u).aux
  info : ∀ ci < k.allocated, Kept (k.pcs t) ci (k.info ci) (k'.info ci)

/-- Other processes are the same, and at most one record is written. -/
theorem Frame.of_others (created : k'.created = k.created) (allocated : k'.allocated = k.allocated)
    (listed : ∀ u ∈ k'.allList, u ∈ k.allList) (tid : (k'.process t).tid = (k.process t).tid)
    (others : ∀ u, u ≠ t → k'.process u = k.process u)
    (info : ∀ ci, Kept (k.pcs t) ci (k.info ci) (k'.info ci)) : Frame k k' t where
  created := created.ge
  allocated := allocated.ge
  listed u _ := listed u
  tid u _ := by
    by_cases eq : u = t
    · rw [eq, tid]
    · rw [others u eq]
  parentTid u _ ne := by rw [others u ne]
  exitStatus u _ ne := by rw [others u ne]
  children u _ ne := by rw [others u ne]
  pc u _ ne := by rw [others u ne]
  aux u _ ne _ := by rw [others u ne]
  info ci _ := info ci

theorem Frame.modify (k : System) (t : ThreadPtr) {f : Process → Process}
    (tid : ∀ p, (f p).tid = p.tid) : Frame k (k.modify t f) t :=
  .of_others rfl rfl (fun _ => id) (by simp [tid]) (fun u ne => modify_process_ne k f ne)
    fun _ => .refl ..

theorem Frame.goto (k : System) (t : ThreadPtr) (pc : Pc) : Frame k (k.goto t pc) t :=
  Frame.modify k t fun _ => rfl

theorem Frame.write (k : System) (t : ThreadPtr) {ci : CiPtr} (f : ChildInfo → ChildInfo) (pc : Pc)
    (hk : Kept (k.pcs t) ci (k.info ci) (f (k.info ci))) :
    Frame k ((k.modifyInfo ci f).goto t pc) t := by
  refine .of_others rfl rfl (fun _ => id) (by simp) (fun u ne => modify_process_ne _ _ ne)
    fun ci' => ?_
  by_cases eq : ci' = ci
  · subst eq
    simpa using hk
  · simpa [modifyInfo_info_ne k f eq] using Kept.refl ..

section
variable (k : System) (aux u : ThreadPtr) (f : Process → ExecAux)

theorem writeAux_keeps {α : Type} (field : Process → α)
    (same : ∀ p a, field { p with aux := a } = field p) :
    field ((k.modify aux fun p => { p with aux := f p }).process u) = field (k.process u) := by
  by_cases eq : u = aux
  · subst eq
    rw [modify_process_self, same]
  · rw [modify_process_ne _ _ eq]

@[simp] theorem writeAux_tid :
    ((k.modify aux fun p => { p with aux := f p }).process u).tid = (k.process u).tid :=
  writeAux_keeps k aux u f Process.tid fun _ _ => rfl

@[simp] theorem writeAux_parentTid :
    ((k.modify aux fun p => { p with aux := f p }).process u).parentTid = (k.process u).parentTid :=
  writeAux_keeps k aux u f Process.parentTid fun _ _ => rfl

@[simp] theorem writeAux_exitStatus :
    ((k.modify aux fun p => { p with aux := f p }).process u).exitStatus =
      (k.process u).exitStatus :=
  writeAux_keeps k aux u f Process.exitStatus fun _ _ => rfl

@[simp] theorem writeAux_children :
    ((k.modify aux fun p => { p with aux := f p }).process u).children = (k.process u).children :=
  writeAux_keeps k aux u f Process.children fun _ _ => rfl

@[simp] theorem writeAux_pc :
    ((k.modify aux fun p => { p with aux := f p }).process u).pc = (k.process u).pc :=
  writeAux_keeps k aux u f Process.pc fun _ _ => rfl

end

theorem Frame.writeAux (k : System) (t : ThreadPtr) {aux : ThreadPtr} (f : Process → ExecAux)
    (pc : Pc) (may : (k.pcs t).aux = some aux) :
    Frame k ((k.modify aux fun p => { p with aux := f p }).goto t pc) t := by
  have own := Frame.goto (k.modify aux fun p => { p with aux := f p }) t pc
  refine ⟨Nat.le_refl _, Nat.le_refl _, fun _ _ => id, ?_, ?_, ?_, ?_, ?_, ?_, fun _ _ => .refl ..⟩
  · exact fun u hb => (own.tid u hb).trans (writeAux_tid ..)
  · exact fun u hb other => (own.parentTid u hb other).trans (writeAux_parentTid ..)
  · exact fun u hb other => (own.exitStatus u hb other).trans (writeAux_exitStatus ..)
  · exact fun u hb other => (own.children u hb other).trans (writeAux_children ..)
  · exact fun u hb other => (own.pc u hb other).trans (writeAux_pc ..)
  · intro u _ other ha
    have ne : u ≠ aux := fun eq => ha (eq ▸ may)
    simp only [System.goto, modify_process_ne _ _ other, modify_process_ne _ _ ne]

theorem Steps.frame (hst : Steps k t k') : Frame k k' t := by
  cases hst with
  | allocate h =>
    have own := Frame.modify k t (f := fun p => { p with
      aux := { parentTid := p.tid }, pc := .threadCreate k.allocated }) fun _ => rfl
    refine ⟨own.created, Nat.le_succ _, own.listed, own.tid, own.parentTid, own.exitStatus,
      own.children, own.pc, own.aux, fun ci hb => ?_⟩
    dsimp only
    rw [Function.update_of_ne (Nat.ne_of_lt hb)]
    exact .refl ..
  | create ci h =>
    have own := Frame.goto k t (.storeTid ci k.nextTid)
    have old : ∀ u < k.created, ((k.goto t (.storeTid ci k.nextTid)).modify k.created
        fun _ => { tid := k.nextTid, live := true, pc := .start t }).process u =
          (k.goto t (.storeTid ci k.nextTid)).process u :=
      fun u hb => modify_process_ne _ _ (Nat.ne_of_lt hb)
    refine ⟨Nat.le_succ _, own.allocated, ?_, ?_, ?_, ?_, ?_, ?_, ?_, own.info⟩
    · grind
    · exact fun u hb => (congrArg Process.tid (old u hb)).trans (own.tid u hb)
    · grind
    · grind
    · grind
    · exact fun u hb ne => (congrArg Process.pc (old u hb)).trans (own.pc u hb ne)
    · grind
  | notCreated ci h | free ci h =>
    exact .write k t _ _ ⟨.inl rfl, .inl rfl, .inl rfl, .inl rfl⟩
  | storeTid ci tid h =>
    exact .write k t _ _ ⟨.inr (h ▸ rfl), .inl rfl, .inl rfl, .inl rfl⟩
  | pushBack | remove | start | loadDown | exit => exact .modify k t fun _ => rfl
  | storeSuccess aux success h =>
    exact .writeAux k t (fun p => { p.aux with loadSuccess := success }) _ (h ▸ rfl)
  | loadUp aux success h =>
    exact .writeAux k t (fun p => { p.aux with loadSema := p.aux.loadSema + 1 }) _ (h ▸ rfl)
  | waitFirst tid ci h =>
    exact .write k t _ _ ⟨.inl rfl, .inr (h ▸ rfl), .inl rfl, .inl rfl⟩
  | waitDown tid ci h =>
    exact .write k t _ _ ⟨.inl rfl, .inl rfl, .inr (.inl (h ▸ rfl)), .inl rfl⟩
  | storeStatus ci h =>
    exact .write k t _ _ ⟨.inl rfl, .inl rfl, .inl rfl, .inr (h ▸ rfl)⟩
  | waitUp ci h =>
    exact .write k t _ _ ⟨.inl rfl, .inl rfl, .inr (.inr (h ▸ rfl)), .inl rfl⟩
  | exitDone h =>
    have own := Frame.modify k t (f := fun p => { p with
      live := decide (t = initialThread), pc := .gone }) fun _ => rfl
    exact ⟨own.created, own.allocated, fun _ _ => List.mem_of_mem_erase, own.tid, own.parentTid,
      own.exitStatus, own.children, own.pc, own.aux, own.info⟩
  | _ => exact .goto k t _

/-- Only `thread_create` makes a process, with the next tid. -/
theorem Steps.created (hst : Steps k t k') (hb : t < k.created) :
    (k'.created = k.created ∧ k'.nextTid = k.nextTid) ∨
    ∃ ci, k.pcs t = .threadCreate ci ∧ k'.created = k.created + 1 ∧
      k'.nextTid = k.nextTid + 1 ∧
      k'.process k.created = { tid := k.nextTid, live := true, pc := .start t } ∧
      k'.process t = { k.process t with pc := .storeTid ci k.nextTid } := by
  cases hst with
  | create ci h =>
    refine .inr ⟨ci, h, rfl, rfl, ?_, ?_⟩
    · exact modify_process_self (k.goto t (.storeTid ci k.nextTid)) k.created
        fun _ => { tid := k.nextTid, live := true, pc := .start t }
    · simp [modify_process_ne _ _ (Nat.ne_of_lt hb)]
  | _ => exact .inl ⟨rfl, rfl⟩

/-- Every process has a tid of its own. -/
@[grind cases] structure Numbered (k : System) : Prop where
  positive : 0 < k.nextTid
  below : ∀ t < k.created, 0 < (k.process t).tid ∧ (k.process t).tid < k.nextTid
  distinct : ∀ t < k.created, ∀ u < k.created, (k.process t).tid = (k.process u).tid → t = u

theorem Numbered.of_frame (inv : Numbered k) (frame : Frame k k' t)
    (created : k'.created = k.created) (nextTid : k'.nextTid = k.nextTid) : Numbered k' := by
  constructor <;> grind [Function.update_apply]

theorem Numbered.step (inv : Numbered k) (hb : t < k.created) (hst : Steps k t k') :
    Numbered k' := by
  have frame := hst.frame
  rcases hst.created hb with ⟨created, nextTid⟩ | ⟨ci, -, created, nextTid, new, -⟩
  · exact inv.of_frame frame created nextTid
  · -- the new tid is above all others
    have old : ∀ {u}, u < k'.created → u ≠ k.created → u < k.created := by grind
    have tidNew : (k'.process k.created).tid = k.nextTid := by rw [new]
    have up : k.nextTid < k'.nextTid := by
      rw [nextTid]
      exact Int.lt_succ _
    refine ⟨Int.lt_trans inv.positive up, ?_, ?_⟩
    · grind
    · grind

theorem numbered_boot : Numbered boot where
  positive := by decide
  below := by
    intro t hb
    rw [Nat.lt_one_iff.mp hb]
    decide
  distinct := by
    intro t hb u born' _
    rw [Nat.lt_one_iff.mp hb, Nat.lt_one_iff.mp born']

end

end System

end Pintos.Userprog
