import Pintos.Threads.Code
import Pintos.Userprog.Family

/-!
# The handshake of exec

`process_execute` hands its child a structure in its own frame and waits until the
child has tried to load its program. The log has the calls, the threads they make, the
ends of loading and the answers. An answer is right when it is what the loading has
come to; and nobody touches the structure once `process_execute` may return.
-/

namespace Pintos.Threads

/-- What `sema_up` runs after it has turned interrupts on again. -/
def Instr.endsUp : Instr → Bool
  | .checkFront | .threadYield | .resume .yielded => true
  | _ => false

theorem Emits.endsUp {i : Instr} {new : List Instr} (he : Emits i new)
    (up : i.endsUp = true ∨ ∃ s, i = .semaUp s) : ∀ j ∈ new, j.endsUp = true := by
  cases he <;> simp_all [Instr.endsUp]

theorem Kernel.schedule_setSema (k : Kernel) (s : SemaPtr) (v : Semaphore) :
    (k.setSema s v).schedule = k.schedule.map (·.setSema s v) := by
  simp only [schedule, Option.map_map]
  rfl

theorem Kernel.execInstr_setSema {k : Kernel} {i : Instr} (ends : i.endsUp = true) (s : SemaPtr)
    (v : Semaphore) : (k.setSema s v).execInstr i = (k.execInstr i).map (·.setSema s v) := by
  cases i with
  | checkFront =>
    have eq : (k.setSema s v).frontIsGreater = k.frontIsGreater := rfl
    simp only [execInstr, checkFront, eq, Option.map_some]
    split_ifs <;> rfl
  | threadYield =>
    simp only [execInstr, threadYield]
    split_ifs with h there there
    · rw [← schedule_setSema]; rfl
    · exact absurd h there
    · exact absurd there h
    · rw [← schedule_setSema]; rfl
  | resume w => rfl
  | _ => cases ends

end Pintos.Threads

namespace Pintos.Userprog

open Threads (ThreadPtr listNext)

inductive Handshake where
  | called (p : ThreadPtr)
  | made (p c : ThreadPtr) (tid : Tid)
  | loaded (c : ThreadPtr) (success : Bool)
  | answered (p : ThreadPtr) (tid : Tid)
  deriving DecidableEq, Repr

/-- The thread that the last `process_execute` of a process has made, and its tid. -/
def childOf : List Handshake → ThreadPtr → Option (ThreadPtr × Tid)
  | [], _ => none
  | .called q :: seen, p => if q = p then none else childOf seen p
  | .made q c tid :: seen, p => if q = p then some (c, tid) else childOf seen p
  | _ :: seen, p => childOf seen p

/-- What `load` has returned in a thread, once it has. -/
def outcome : List Handshake → ThreadPtr → Option Bool
  | [], _ => none
  | .made _ d _ :: seen, c => if d = c then none else outcome seen c
  | .loaded d success :: seen, c => if d = c then some success else outcome seen c
  | _ :: seen, c => outcome seen c

/-- What `process_execute` may return: the tid of a thread that has loaded its program, or
-1 when there is no thread or its loading has failed. -/
def Answer (seen : List Handshake) (p : ThreadPtr) (tid : Tid) : Prop :=
  match childOf seen p with
  | none => tid = tidError
  | some (c, given) => outcome seen c = some true ∧ tid = given ∨
      outcome seen c = some false ∧ tid = tidError

def Answered : List Handshake → Prop
  | [] => True
  | .answered p tid :: seen => Answer seen p tid ∧ Answered seen
  | _ :: seen => Answered seen

namespace System

/-- What a step of `t` shows of the handshakes. -/
def handshakes (k k' : System) (t : ThreadPtr) : List Handshake :=
  match k.pcs t, k'.pcs t with
  | .running, .allocate => [.called t]
  | .threadCreate _, .storeTid _ _ => [.made t k.created (k'.process k.created).tid]
  | .load _, .storeSuccess _ success => [.loaded t success]
  | .allocate, .running | .threadCreate _, .running | .free _, .running => [.answered t tidError]
  | .loadCheck _ tid, .running => [.answered t tid]
  | _, _ => []

def shakes (k : System) (e : Event) : List Handshake :=
  (k.step e).elim [] fun k' => k.handshakes k' e.actor

section
variable {k k' : System} {t : ThreadPtr} {seen : List Handshake}

theorem handshakes_childOf {p : ThreadPtr} (ne : p ≠ t) :
    childOf (k.handshakes k' t ++ seen) p = childOf seen p := by
  unfold handshakes
  split <;> simp [childOf, Ne.symm ne]

/-- A thread loads its program once, in `start_process`. -/
theorem handshakes_outcome {c : ThreadPtr} (hb : c < k.created)
    (done : c = t → (k.pcs t).aux = none) :
    outcome (k.handshakes k' t ++ seen) c = outcome seen c := by
  have old : k.created ≠ c := Nat.ne_of_gt hb
  unfold handshakes
  split <;> simp only [List.cons_append, List.nil_append, outcome, if_neg old]
  rename_i aux _ success load _
  refine if_neg fun own => ?_
  have none := done own.symm
  rw [load] at none
  cases none

/-- The child a `process_execute` has made is still in `start_process`, or has answered. -/
def Loads (seen : List Handshake) (k : System) (p c : ThreadPtr) : Prop :=
  (k.pcs c).aux = some p ∨
    (k.pcs c).aux = none ∧ outcome seen c = some (k.process p).aux.loadSuccess

/-- What the log says of a process inside `process_execute`. -/
def Told (seen : List Handshake) (k : System) (p : ThreadPtr) : Prop :=
  match k.pcs p with
  | .allocate | .threadCreate _ => childOf seen p = none
  | .storeTid _ tid | .pushBack _ tid | .loadDown _ tid =>
    ∃ c < k.created, c ≠ p ∧ (k.process c).tid = tid ∧ childOf seen p = some (c, tid) ∧
      Loads seen k p c
  | .loadCheck _ tid =>
    ∃ c < k.created, childOf seen p = some (c, tid) ∧ (k.pcs c).aux = none ∧
      outcome seen c = some (k.process p).aux.loadSuccess
  | .remove _ | .free _ =>
    ∃ c < k.created, ∃ tid, childOf seen p = some (c, tid) ∧ (k.pcs c).aux = none ∧
      outcome seen c = some false
  | _ => True

/-- What the log says of a thread inside `start_process`. -/
def Tried (seen : List Handshake) (k : System) (c : ThreadPtr) : Prop :=
  match k.pcs c with
  | .storeSuccess _ success => outcome seen c = some success
  | .loadUp p success => outcome seen c = some success ∧ (k.process p).aux.loadSuccess = success
  | _ => True

/-- A child that is done with the structure stays so. -/
theorem Steps.done {c : ThreadPtr} (hst : Steps k t k') (hb : t < k.created)
    (old : c < k.created) (done : (k.pcs c).aux = none) : (k'.pcs c).aux = none := by
  by_cases own : c = t
  · subst own
    refine Option.eq_none_iff_forall_ne_some.mpr fun p again => ?_
    cases (hst.aux hb again).1.symm.trans done
  · rw [pcs, hst.frame.pc c old own]
    exact done

/-- Only the child it has made writes the structure in the frame of another process. -/
theorem Starting.aux_kept (starting : Starting k) (hb : t < k.created) (hst : Steps k t k')
    {p : ThreadPtr} (old : p < k.created) (ne : p ≠ t)
    (ha : (k.pcs p).making ≠ some (k.process t).tid) : (k'.process p).aux = (k.process p).aux :=
  hst.frame.aux p old ne fun aux => ha (starting.waits t hb p aux).2.2

theorem Loads.step {p c : ThreadPtr} (loads : Loads seen k p c) (numbered : Numbered k)
    (starting : Starting k) (tried : Tried seen k t) (hb : t < k.created)
    (hst : Steps k t k') (ho : c < k.created) (old : p < k.created) (ne : p ≠ t)
    (making : (k.pcs p).making = some (k.process c).tid) :
    Loads (k.handshakes k' t ++ seen) k' p c := by
  rcases loads with busy | ⟨done, answer⟩
  · by_cases own : c = t
    · subst own
      cases hst with
      | start aux h | load aux success h =>
        rw [h] at busy
        exact .inl (by simpa [pcs, Pc.aux] using busy)
      | storeSuccess aux success h =>
        rw [h] at busy
        exact .inl (by simpa [pcs, Pc.aux] using busy)
      | loadUp aux success h =>
        -- the answer is in place when the semaphore goes up
        rw [h] at busy
        obtain rfl : aux = p := Option.some.inj busy
        simp only [Tried, h] at tried
        refine .inr ⟨?_, ?_⟩
        · simp only [pcs, goto, modify_process_self]
          split <;> rfl
        · simp only [handshakes, h, List.nil_append, goto, modify_process_ne _ _ ne,
            modify_process_self]
          rw [tried.1, tried.2]
      | _ => simp_all [Pc.aux]
    · refine .inl ?_
      rw [pcs, hst.frame.pc c ho own]
      exact busy
  · refine .inr ⟨hst.done hb ho done, ?_⟩
    rw [handshakes_outcome ho fun own => own ▸ done, answer]
    have ha : (k.pcs t).aux ≠ some p := by grind
    rw [hst.frame.aux p old ne ha]

theorem Told.other {p : ThreadPtr} (told : Told seen k p) (numbered : Numbered k)
    (starting : Starting k) (tried : Tried seen k t) (hb : t < k.created) (hst : Steps k t k')
    (old : p < k.created) (ne : p ≠ t) : Told (k.handshakes k' t ++ seen) k' p := by
  have grows := hst.frame.created
  have child : childOf (k.handshakes k' t ++ seen) p = childOf seen p := handshakes_childOf ne
  have aux := starting.aux_kept hb hst old ne
  have eq : k'.pcs p = k.pcs p := hst.frame.pc p old ne
  unfold Told at told ⊢
  rw [eq]
  cases pc : k.pcs p with
  | allocate | threadCreate ci =>
    rw [pc] at told
    exact child.trans told
  | storeTid ci tid | pushBack ci tid | loadDown ci tid =>
    rw [pc] at told
    obtain ⟨c, ho, ha, number, hm, loads⟩ := told
    refine ⟨c, Nat.lt_of_lt_of_le ho grows, ha, (hst.frame.tid c ho).trans number,
      child.trans hm, loads.step numbered starting tried hb hst ho old ne ?_⟩
    rw [pc, number]
    rfl
  | loadCheck ci tid =>
    rw [pc] at told
    obtain ⟨c, ho, hm, done, answer⟩ := told
    refine ⟨c, Nat.lt_of_lt_of_le ho grows, child.trans hm, hst.done hb ho done, ?_⟩
    rw [handshakes_outcome ho fun own => own ▸ done, aux (by rw [pc]; nofun), answer]
  | remove ci | free ci =>
    rw [pc] at told
    obtain ⟨c, ho, tid, hm, done, failed⟩ := told
    refine ⟨c, Nat.lt_of_lt_of_le ho grows, tid, child.trans hm,
      hst.done hb ho done, ?_⟩
    rw [handshakes_outcome ho fun own => own ▸ done, failed]
  | _ => trivial

theorem Told.own (told : Told seen k t) (starting : Starting k) (hb : t < k.created)
    (hst : Steps k t k') : Told (k.handshakes k' t ++ seen) k' t := by
  have frame := hst.frame
  have keep : ∀ c < k.created, c ≠ t → (k'.process t).aux = (k.process t).aux →
      Loads seen k t c → Loads seen k' t c := by
    intro c ho ne eq loads
    unfold Loads
    rw [pcs, frame.pc c ho ne, eq]
    exact loads
  have stays : ∀ c < k.created, (k.pcs c).aux = none → (k'.pcs c).aux = none :=
    fun c => hst.done hb
  unfold Told at told
  cases hst with
  | execute h =>
    rw [pcs] at h
    simp [Told, handshakes, h, pcs, childOf]
  | allocate h =>
    rw [h] at told
    rw [pcs] at h
    simpa [Told, handshakes, h, pcs] using told
  | create ci h =>
    rw [pcs] at h
    simp only [Told, handshakes, h, pcs, goto, modify_process_ne _ _ (Nat.ne_of_lt hb),
      modify_process_self]
    refine ⟨k.created, Nat.lt_succ_self _, Nat.ne_of_gt hb, by simp, by simp [childOf], .inl ?_⟩
    simp [pcs, Pc.aux]
  | storeTid ci tid h | pushBack ci tid h =>
    rw [h] at told
    obtain ⟨c, ho, ne, number, hm, loads⟩ := told
    rw [pcs] at h
    simp only [Told, handshakes, h, pcs, goto, modify_process_self, List.nil_append]
    exact ⟨c, ho, ne, (frame.tid c ho).trans number, hm,
      keep c ho ne (by simp) loads⟩
  | loadDown ci tid h up =>
    rw [h] at told
    obtain ⟨c, ho, ne, number, hm, loads⟩ := told
    -- the semaphore is up, so the child has answered
    obtain ⟨done, answer⟩ := loads.resolve_left fun busy => up (starting.waits c ho t busy).2.1.1
    rw [pcs] at h
    simp only [Told, handshakes, h, pcs, modify_process_self, List.nil_append]
    exact ⟨c, ho, hm, stays c ho done, answer⟩
  | notLoaded ci tid h failure =>
    rw [h] at told
    obtain ⟨c, ho, hm, done, answer⟩ := told
    rw [pcs] at h
    simp only [Told, handshakes, h, pcs, goto, modify_process_self, List.nil_append]
    exact ⟨c, ho, tid, hm, stays c ho done, failure ▸ answer⟩
  | remove ci h =>
    rw [h] at told
    rw [pcs] at h
    simp only [Told, handshakes, h, pcs, modify_process_self, List.nil_append]
    obtain ⟨c, ho, tid, hm, done, failed⟩ := told
    exact ⟨c, ho, tid, hm, stays c ho done, failed⟩
  | loadUp aux success => cases success <;> simp [Told, pcs]
  | _ => simp [Told, pcs]

theorem Tried.step {c : ThreadPtr} (tried : Tried seen k c) (numbered : Numbered k)
    (starting : Starting k) (hb : t < k.created) (hst : Steps k t k') (ho : c < k.created)
    (ne : c ≠ t) : Tried (k.handshakes k' t ++ seen) k' c := by
  have eq : k'.pcs c = k.pcs c := hst.frame.pc c ho ne
  have outcome : outcome (k.handshakes k' t ++ seen) c = outcome seen c :=
    handshakes_outcome ho fun own => absurd own ne
  unfold Tried at tried ⊢
  rw [eq, outcome]
  cases pc : k.pcs c with
  | storeSuccess p success =>
    rw [pc] at tried
    exact tried
  | loadUp p success =>
    rw [pc] at tried
    obtain ⟨old, open_, making⟩ := starting.waits c ho p (pc ▸ rfl)
    have hk : (k'.process p).aux = (k.process p).aux := by
      by_cases own : p = t
      · subst own
        exact (hst.making making open_.1).2
      · refine starting.aux_kept hb hst old own fun eq => ne ?_
        exact numbered.distinct c ho t hb (Option.some.inj (making.symm.trans eq))
    exact ⟨tried.1, hk ▸ tried.2⟩
  | _ => trivial

theorem Tried.own (tried : Tried seen k t) (hb : t < k.created) (hst : Steps k t k') :
    Tried (k.handshakes k' t ++ seen) k' t := by
  unfold Tried at tried
  cases hst with
  | create ci h => simp [Tried, pcs, modify_process_ne _ _ (Nat.ne_of_lt hb)]
  | load aux success h =>
    rw [pcs] at h
    simp [Tried, handshakes, h, pcs, outcome]
  | storeSuccess aux success h =>
    rw [h] at tried
    rw [pcs] at h
    simp only [Tried, handshakes, h, pcs, goto, modify_process_self, List.nil_append]
    refine ⟨tried, ?_⟩
    by_cases own : aux = t
    · subst own
      simp
    · simp [modify_process_ne _ _ own]
  | loadUp aux success => cases success <;> simp [Tried, pcs]
  | _ => simp [Tried, pcs]

theorem Told.answered (told : Told seen k t) (hb : t < k.created) (hst : Steps k t k')
    (answered : Answered seen) : Answered (k.handshakes k' t ++ seen) := by
  unfold Told at told
  cases hst with
  | outOfMemory h | notCreated ci h =>
    rw [h] at told
    rw [pcs] at h
    simp [handshakes, h, pcs, Answered, Answer, told, answered]
  | loaded ci tid h success =>
    rw [h] at told
    obtain ⟨c, _, hm, _, answer⟩ := told
    rw [pcs] at h
    simp [handshakes, h, pcs, Answered, Answer, hm, answer, success, answered]
  | free ci h =>
    rw [h] at told
    obtain ⟨c, _, tid, hm, _, failed⟩ := told
    rw [pcs] at h
    simp [handshakes, h, pcs, Answered, Answer, hm, failed, answered]
  | create ci h =>
    rw [pcs] at h
    simp [handshakes, h, pcs, modify_process_ne _ _ (Nat.ne_of_lt hb), Answered, answered]
  | loadUp aux success h => cases success <;> simp_all [handshakes, pcs]
  | _ => simp_all [handshakes, pcs, Answered]

structure Shaken (seen : List Handshake) (k : System) : Prop where
  numbered : Numbered k
  starting : Starting k
  told : ∀ p < k.created, Told seen k p
  tried : ∀ c < k.created, Tried seen k c
  answered : Answered seen

theorem Shaken.step {e : Event} (shaken : Shaken seen k) (h : k.step e = some k') :
    Shaken (k.shakes e ++ seen) k' := by
  obtain ⟨hb, hst⟩ := step_steps h
  have log : k.shakes e = k.handshakes k' e.actor := by simp [shakes, h]
  rw [log]
  have told := shaken.told _ hb
  have tried := shaken.tried _ hb
  refine ⟨shaken.numbered.step hb hst, shaken.starting.step shaken.numbered hb hst, ?_, ?_,
    told.answered hb hst shaken.answered⟩
  · refine hst.forall_born hb (fun p old ne => ?_) (told.own shaken.starting hb hst) ?_
    · exact (shaken.told p old).other shaken.numbered shaken.starting tried hb hst old ne
    · intro _ _ hm _
      simp [Told, pcs, hm]
  · refine hst.forall_born hb (fun c ho ha => ?_) (tried.own hb hst) ?_
    · exact (shaken.tried c ho).step shaken.numbered shaken.starting hb hst ho ha
    · intro _ _ hm _
      simp [Tried, pcs, hm]

theorem shaken_boot : Shaken [] boot where
  numbered := numbered_boot
  starting := starting_boot
  told p hb := by rw [Nat.lt_one_iff.mp hb]; trivial
  tried c hb := by rw [Nat.lt_one_iff.mp hb]; trivial
  answered := trivial

/-! ### Who touches the structure -/

/-- The same state with something else in the structure of `p`. -/
def setAux (k : System) (p : ThreadPtr) (a : ExecAux) : System :=
  k.modify p fun q => { q with aux := a }

theorem modify_comm {p c : ThreadPtr} (ne : c ≠ p) (f g : Process → Process) :
    (k.modify p f).modify c g = (k.modify c g).modify p f := by
  simp only [modify, Function.update_of_ne ne, Function.update_of_ne ne.symm]
  rw [Function.update_comm ne.symm]

section
variable {p c : ThreadPtr} (a : ExecAux)

theorem setAux_modify (ne : c ≠ p) (f : Process → Process) :
    (k.setAux p a).modify c f = (k.modify c f).setAux p a := modify_comm ne ..

theorem setAux_goto (ne : c ≠ p) (pc : Pc) : (k.setAux p a).goto c pc = (k.goto c pc).setAux p a :=
  modify_comm ne ..

theorem setAux_modifyInfo (ci : CiPtr) (f : ChildInfo → ChildInfo) :
    (k.setAux p a).modifyInfo ci f = (k.modifyInfo ci f).setAux p a := rfl

theorem setAux_children : ((k.setAux p a).process c).children = (k.process c).children := by
  simp [setAux]

theorem setAux_find (tid : Tid) : (k.setAux p a).findThreadByTid tid = k.findThreadByTid tid := by
  simp [setAux, findThreadByTid]

theorem execPc_setAux (ha : c ≠ p) (old : p < k.created) {pc : Pc} (done : pc.aux ≠ some p)
    (ok : Bool) : (k.setAux p a).execPc c ok pc = (k.execPc c ok pc).map (·.setAux p a) := by
  have self : (k.setAux p a).process c = k.process c := modify_process_ne _ _ ha
  cases pc with
  | running | gone => rfl
  | allocate =>
    simp only [execPc, setAux_modify a ha, setAux_goto a ha, Option.map_some]
    split_ifs <;> rfl
  | threadCreate ci =>
    have hf : k.created ≠ p := Nat.ne_of_gt old
    have created : (k.setAux p a).created = k.created := rfl
    simp only [execPc, created, setAux_modifyInfo, setAux_goto a ha, setAux_modify a hf,
      Option.map_some]
    split_ifs <;> rfl
  | loadDown ci tid | waitDown tid ci =>
    simp only [execPc, self, setAux_modifyInfo, setAux_modify a ha, setAux_goto a ha]
    split_ifs <;> first | rfl | contradiction
  | start aux =>
    have ne : (k.setAux p a).process aux = k.process aux :=
      modify_process_ne _ _ fun eq => done (congrArg some eq)
    simp only [execPc, ne, setAux_modify a ha, Option.map_some]
  | storeSuccess aux success | loadUp aux success =>
    have ne : aux ≠ p := fun eq => done (congrArg some eq)
    simp only [execPc, setAux_modify a ne, setAux_goto a ha, Option.map_some]
  | waitTest tid e | searchTest found e =>
    cases e with
    | none => simp only [execPc, setAux_goto a ha, Option.map_some]
    | some ci =>
      simp only [execPc, self, setAux_goto a ha, Option.map_some]
      rfl
  | waitCheck tid ci =>
    simp only [execPc, setAux_modifyInfo, setAux_goto a ha, Option.map_some]
    split_ifs <;> first | rfl | contradiction
  | exitDone =>
    simp only [execPc, setAux_modify a ha, Option.map_some]
    rfl
  | _ =>
    simp only [execPc, self, setAux_modify a ha, setAux_goto a ha, setAux_modifyInfo,
      setAux_find, setAux_children, Option.map_some]

end

/-- A step of a thread that has no pointer to the structure neither reads nor writes it. -/
theorem step_setAux {p : ThreadPtr} {e : Event} (ne : e.actor ≠ p) (old : p < k.created)
    (done : (k.pcs e.actor).aux ≠ some p) (a : ExecAux) :
    (k.setAux p a).step e = (k.step e).map (·.setAux p a) := by
  have self : (k.setAux p a).process e.actor = k.process e.actor := modify_process_ne _ _ ne
  have created : (k.setAux p a).created = k.created := rfl
  cases e with
  | request t r =>
    simp only [System.step, created]
    rw [show (k.setAux p a).process t = k.process t from self]
    split_ifs
    · refine congrArg some ?_
      cases r with
      | execute => exact setAux_goto a ne _
      | wait tid =>
        simp only [request, setAux_children]
        exact setAux_goto a ne _
      | exit status =>
        simp only [request]
        exact setAux_modify a ne _
    · rfl
  | exec t ok =>
    have uses : (k.setAux p a).uses t = k.uses t := by
      unfold System.uses
      rw [show (k.setAux p a).process t = k.process t from self]
    have alive : (k.setAux p a).alive = k.alive := by
      funext m
      cases m with
      | info ci => rfl
      | process t => exact writeAux_keeps k p t (fun _ => a) Process.live fun _ _ => rfl
    simp only [System.step, System.exec, created, uses, alive]
    rw [show (k.setAux p a).process t = k.process t from self]
    split_ifs
    · exact execPc_setAux a ne old done ok
    · rfl
    · rfl

end

/-- While a child may still touch the structure in the frame of `process_execute`, the call
cannot get past its `sema_down`. -/
theorem Starting.holds {k k' : System} (starting : Starting k) {c p : ThreadPtr}
    (hb : c < k.created) (busy : (k.pcs c).aux = some p) {e : Event} (own : e.actor = p)
    (h : k.step e = some k') : (k'.pcs p).making = some (k.process c).tid := by
  obtain ⟨_, open_, making⟩ := starting.waits c hb p busy
  obtain ⟨_, hst⟩ := step_steps h
  rw [own] at hst
  exact (hst.making making open_.1).1

/-- The calls of `process_execute` get the right answers after the loading is over; while
the child has a pointer to the structure in their frame they stay in `sema_down` or before
it; and a thread without that pointer does not touch the structure, nor does what
`sema_up` runs after it has turned interrupts on. -/
theorem exec_handshake {history : List Event} {k : System}
    (run : Machine.Run step Machine.Free boot history k) :
    Answered (Machine.log step shakes boot history) ∧
    (∀ c < k.created, ∀ p, (k.pcs c).aux = some p →
      (k.pcs p).making = some (k.process c).tid ∧ (k.process p).aux.loadSema = 0 ∧
      ∀ e k', e.actor = p → k.step e = some k' → (k'.pcs p).making = some (k.process c).tid) ∧
    (∀ e, ∀ p < k.created, e.actor ≠ p → (k.pcs e.actor).aux ≠ some p →
      ∀ a, (k.setAux p a).step e = (k.step e).map (·.setAux p a)) ∧
    ∀ i new, Threads.Emits i new → (i.endsUp = true ∨ ∃ s, i = .semaUp s) →
      ∀ j ∈ new, j.endsUp = true ∧ ∀ (m : Threads.Kernel) s v,
        (m.setSema s v).execInstr j = (m.execInstr j).map (·.setSema s v) := by
  have shaken : Shaken (Machine.log step shakes boot history) k :=
    run.log_invariant shaken_boot fun _ _ _ _ shaken _ h => shaken.step h
  refine ⟨shaken.answered, fun c hb p busy => ?_, ?_, ?_⟩
  · obtain ⟨_, open_, making⟩ := shaken.starting.waits c hb p busy
    exact ⟨making, open_.1, fun e k' own h => shaken.starting.holds hb busy own h⟩
  · exact fun e p old ne done a => step_setAux ne old done a
  · intro i new he up j mem
    have ends := he.endsUp up j mem
    exact ⟨ends, fun m s v => Threads.Kernel.execInstr_setSema ends s v⟩

def execAndLoad : List Event := executes 0 ++ loads 1 true ++ [.exec 0 true, .exec 0 true]

theorem exec_handshake_execAndLoad :
    ∃ k, Machine.runs step Machine.Free boot execAndLoad = some k ∧
      Answered [.answered 0 3, .loaded 1 true, .made 0 1 3, .called 0] := by
  have log : Machine.log step shakes boot execAndLoad.reverse =
      [.answered 0 3, .loaded 1 true, .made 0 1 3, .called 0] := by decide +kernel
  have goes : (Machine.runs step Machine.Free boot execAndLoad).isSome := by decide +kernel
  obtain ⟨k, hr⟩ := Option.isSome_iff_exists.mp goes
  obtain ⟨answered, _⟩ := exec_handshake (Machine.runs_run hr)
  rw [log] at answered
  exact ⟨k, hr, answered⟩

end System

end Pintos.Userprog
