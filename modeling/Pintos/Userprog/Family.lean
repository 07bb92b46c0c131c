import Pintos.Userprog.ProcessMemory

/-!
# Parents, children and their records

Every record in a list belongs to one child of the process that has the list, and
a child that exits looks for its record in the list of that process.
-/

namespace Pintos.Userprog

open Threads (ThreadPtr listNext)

/-- The child that `process_execute` has created and whose record it has yet to put in its list. -/
def Pc.linking : Pc → Option Tid
  | .storeTid _ tid | .pushBack _ tid => some tid
  | _ => none

/-- The record that a `process_execute` has given its tid, and the tid. -/
def Pc.given : Pc → Option (CiPtr × Tid)
  | .pushBack ci tid | .loadDown ci tid | .loadCheck ci tid => some (ci, tid)
  | _ => none

theorem Pc.making_of_linking {pc : Pc} {tid : Tid} (h : pc.linking = some tid) :
    pc.making = some tid := by
  cases pc <;> first | exact h | cases h

theorem Pc.walks_of_posts {pc : Pc} {ci : CiPtr} (h : pc.posts = some ci) : pc.walks = some ci := by
  cases pc <;> first | exact h | cases h

namespace System

/-- `c` is the child with that tid that `p` has started. -/
@[grind cases] structure Kin (k : System) (p c : ThreadPtr) (tid : Tid) : Prop where
  born : c < k.created
  tid : (k.process c).tid = tid
  after : p < c
  starts : ∀ q, k.pcs c = .start q → q = p
  parent : (∀ q, k.pcs c ≠ .start q) → (k.process c).parentTid = (k.process p).tid

@[grind cases] structure Family (k : System) : Prop where
  child : ∀ p < k.created, ∀ r ∈ (k.process p).children, ∃ c, Kin k p c (k.info r).tid
  once : ∀ p < k.created, ∀ r ∈ (k.process p).children, ∀ r' ∈ (k.process p).children,
    (k.info r).tid = (k.info r').tid → r = r'
  made : ∀ p < k.created, ∀ tid, (k.pcs p).making = some tid → ∃ c, Kin k p c tid
  linking : ∀ p < k.created, ∀ tid, (k.pcs p).linking = some tid →
    ∀ r ∈ (k.process p).children, (k.info r).tid ≠ tid
  given : ∀ p < k.created, ∀ ci tid, (k.pcs p).given = some (ci, tid) → (k.info ci).tid = tid
  found : ∀ c < k.created, ∀ p, k.pcs c = .searchBegin p →
    p < k.created ∧ (k.process p).tid = (k.process c).parentTid
  posts : ∀ c < k.created, ∀ r, (k.pcs c).posts = some r → (k.info r).tid = (k.process c).tid

section
variable {k k' : System} {t p c : ThreadPtr} {r : CiPtr} {tid : Tid}

/-- The processes after a step are those before it, among them the one that made
the step, and the new one. -/
theorem Steps.forall_born {P : ThreadPtr → Prop} (hst : Steps k t k') (hb : t < k.created)
    (old : ∀ u < k.created, u ≠ t → P u) (own : P t)
    (new : ∀ ci, k.pcs t = .threadCreate ci →
      k'.process k.created = { tid := k.nextTid, live := true, pc := .start t } →
      k'.created = k.created + 1 → P k.created) :
    ∀ u < k'.created, P u := by
  have was : ∀ u < k.created, P u := by
    intro u lt
    by_cases eq : u = t
    · exact eq ▸ own
    · exact old u lt eq
  rcases hst.created hb with ⟨created, -⟩ | ⟨ci, h, created, -, hm, -⟩
  · rw [created]
    exact was
  · grind

theorem Steps.parentTid (hst : Steps k t k') (hb : t < k.created) :
    (∀ q, k'.pcs t ≠ .start q) ∧
    ((∃ aux, k.pcs t = .start aux ∧ (k'.process t).parentTid = (k.process aux).aux.parentTid) ∨
      (∀ q, k.pcs t ≠ .start q) ∧ (k'.process t).parentTid = (k.process t).parentTid) := by
  cases hst with
  | start aux h => exact ⟨by simp [pcs], .inl ⟨aux, h, by simp⟩⟩
  | create ci h => simp_all [pcs, modify_process_ne _ _ (Nat.ne_of_lt hb)]
  | loadUp aux success h => cases success <;> simp_all [pcs]
  | _ => simp_all [pcs]

theorem Steps.children (hst : Steps k t k') (hb : t < k.created)
    (mem : r ∈ (k'.process t).children) :
    r ∈ (k.process t).children ∨ ∃ tid, k.pcs t = .pushBack r tid := by
  cases hst with
  | create ci h =>
    exact .inl (by simpa [modify_process_ne _ _ (Nat.ne_of_lt hb)] using mem)
  | pushBack ci tid h =>
    simp only [modify_process_self, List.mem_append, List.mem_singleton] at mem
    rcases mem with old | rfl
    · exact .inl old
    · exact .inr ⟨tid, h⟩
  | remove ci h =>
    simp only [modify_process_self] at mem
    exact .inl (List.mem_of_mem_erase mem)
  | _ => exact .inl (by simpa using mem)

theorem Kin.step (kin : Kin k p c tid) (hs : Sound k) (hb : t < k.created)
    (hst : Steps k t k') : Kin k' p c tid := by
  have frame := hst.frame
  have ho : p < k.created := Nat.lt_trans kin.after kin.born
  refine ⟨Nat.lt_of_lt_of_le kin.born frame.created, (frame.tid c kin.born).trans kin.tid,
    kin.after, ?_, ?_⟩
  · intro q starts
    by_cases eq : c = t
    · subst eq
      exact absurd starts ((hst.parentTid hb).1 q)
    · exact kin.starts q ((frame.pc c kin.born eq).symm.trans starts)
  · intro started
    rw [frame.tid p ho]
    by_cases eq : c = t
    · subst eq
      rcases (hst.parentTid hb).2 with ⟨aux, h, parentTid⟩ | ⟨was, parentTid⟩
      · rw [parentTid, kin.starts aux h]
        exact (hs.starting.waits c hb p (by rw [h, kin.starts aux h]; rfl)).2.1.2
      · rw [parentTid]
        exact kin.parent was
    · rw [frame.parentTid c kin.born eq]
      refine kin.parent fun q starts => started q ?_
      exact (frame.pc c kin.born eq).trans starts

/-- The tid of a record is set before the record is in a list. -/
theorem Sound.tid_child (hs : Sound k) (hst : Steps k t k')
    (mem : r ∈ (k.process p).children) : (k'.info r).tid = (k.info r).tid := by
  refine (hst.frame.info r (hs.safe.owned p r mem).1).tid.resolve_right fun unlinked => ?_
  exact (hs.safe.loose t r (Pc.loose_of_unlinked unlinked)).2.2 p mem

theorem Sound.tid_walked (hs : Sound k) (hst : Steps k t k')
    (walks : (k.pcs c).walks = some r) : (k'.info r).tid = (k.info r).tid := by
  refine (hst.frame.info r (hs.safe.walks c r walks).1).tid.resolve_right fun unlinked => ?_
  exact hs.safe.unseen t c r unlinked walks

theorem Steps.making_old (hst : Steps k t k') (hb : t < k.created)
    (making : (k'.pcs t).making = some tid) :
    (k.pcs t).making = some tid ∨ Kin k' t k.created tid := by
  cases hst with
  | create ci h =>
    refine .inr ⟨Nat.lt_succ_self _, ?_, hb, ?_, ?_⟩
    · simpa [pcs, modify_process_ne _ _ (Nat.ne_of_lt hb), Pc.making] using making
    · simp [pcs]
    · simp [pcs]
  | storeTid _ _ h | pushBack _ _ h =>
    rw [h]
    exact .inl (by simpa [pcs, Pc.making] using making)
  | loadUp aux success => cases success <;> simp [pcs, Pc.making] at making
  | _ => simp [pcs, Pc.making] at making

theorem Steps.linking_old (hst : Steps k t k') (hb : t < k.created)
    (linking : (k'.pcs t).linking = some tid) :
    (k'.process t).children = (k.process t).children ∧
      ((k.pcs t).linking = some tid ∨ tid = k.nextTid) := by
  cases hst with
  | create ci h =>
    simp only [pcs, goto, modify_process_ne _ _ (Nat.ne_of_lt hb), modify_process_self, Pc.linking,
      Option.some.injEq] at linking
    refine ⟨by simp [modify_process_ne _ _ (Nat.ne_of_lt hb)], .inr linking.symm⟩
  | storeTid _ _ h =>
    rw [h]
    exact ⟨by simp, .inl (by simpa [pcs, Pc.linking] using linking)⟩
  | loadUp aux success => cases success <;> simp [pcs, Pc.linking] at linking
  | _ => simp [pcs, Pc.linking] at linking

theorem Steps.given_old (hst : Steps k t k') (hb : t < k.created)
    (given : (k'.pcs t).given = some (r, tid)) :
    (k'.info r).tid = tid ∨ (k.pcs t).given = some (r, tid) ∧ k'.info = k.info := by
  cases hst with
  | storeTid ci tid' h =>
    have eq : ci = r ∧ tid' = tid := by simpa [pcs, Pc.given] using given
    obtain ⟨rfl, rfl⟩ := eq
    exact .inl (by simp)
  | pushBack _ _ h | loadDown _ _ h =>
    rw [h]
    exact .inr ⟨by simpa [pcs, Pc.given] using given, rfl⟩
  | create => simp [pcs, modify_process_ne _ _ (Nat.ne_of_lt hb), Pc.given] at given
  | loadUp aux success => cases success <;> simp [pcs, Pc.given] at given
  | _ => simp [pcs, Pc.given] at given

theorem Steps.posts_old (hst : Steps k t k') (hb : t < k.created)
    (posts : (k'.pcs t).posts = some r) :
    (k.pcs t).walks = some r ∧ ((k.info r).tid = (k.process t).tid ∨ (k.pcs t).posts = some r) := by
  cases hst with
  | searchHere found ci h same =>
    have eq : ci = r := by simpa [pcs, Pc.posts] using posts
    subst eq
    exact ⟨by rw [h]; rfl, .inl same⟩
  | storeStatus ci h =>
    have eq : ci = r := by simpa [pcs, Pc.posts] using posts
    subst eq
    exact ⟨by rw [h]; rfl, .inr (h ▸ rfl)⟩
  | create => simp [pcs, modify_process_ne _ _ (Nat.ne_of_lt hb), Pc.posts] at posts
  | loadUp aux success => cases success <;> simp [pcs, Pc.posts] at posts
  | _ => simp [pcs, Pc.posts] at posts

theorem Steps.found_old (hst : Steps k t k') (hb : t < k.created)
    (found : k'.pcs t = .searchBegin p) :
    k.findThreadByTid (k.process t).parentTid = some p ∧
      (k'.process t).parentTid = (k.process t).parentTid := by
  cases hst with
  | lookup found' h some =>
    have eq : found' = p := by simpa [pcs] using found
    subst eq
    exact ⟨some, by simp⟩
  | create => simp [pcs, modify_process_ne _ _ (Nat.ne_of_lt hb)] at found
  | loadUp aux success => cases success <;> simp [pcs] at found
  | _ => simp [pcs] at found

section
variable (family : Family k)
include family

theorem Family.given_step (hs : Sound k) (hb : t < k.created)
    (hst : Steps k t k') : ∀ p < k'.created, ∀ ci tid, (k'.pcs p).given = some (ci, tid) →
      (k'.info ci).tid = tid := by
  refine hst.forall_born hb ?_ ?_ ?_
  · intro p lt ne ci tid given
    rw [pcs, hst.frame.pc p lt ne] at given
    -- a record with a tid is in the list, or `p` alone may write it
    have hk : (k'.info ci).tid = (k.info ci).tid := by
      cases pc : (k.process p).pc with
      | pushBack ci' tid' =>
        obtain ⟨rfl, -⟩ : ci' = ci ∧ tid' = tid := by simpa [pc, Pc.given] using given
        have loose : (k.pcs p).loose = some ci' := by rw [pcs, pc]; rfl
        refine (hst.frame.info ci' (hs.safe.loose p ci' loose).1).tid.resolve_right ?_
        intro unlinked
        exact ne (hs.safe.looseOnce p t ci' loose (Pc.loose_of_unlinked unlinked))
      | loadDown ci' tid' | loadCheck ci' tid' =>
        obtain ⟨rfl, -⟩ : ci' = ci ∧ tid' = tid := by simpa [pc, Pc.given] using given
        obtain ⟨was, eq⟩ := hs.safe.last p ci' (by rw [pcs, pc]; rfl)
        have mem : ci' ∈ k.shape.children p := by simp [eq]
        exact hs.tid_child hst mem
      | _ => simp [pc, Pc.given] at given
    rw [hk]
    exact family.given p lt ci tid given
  · intro ci tid given
    rcases hst.given_old hb given with written | ⟨was, same⟩
    · exact written
    · rw [same]
      exact family.given t hb ci tid was
  · intro _ _ hm _ ci tid given
    simp [pcs, hm, Pc.given] at given

theorem Family.child_step (hs : Sound k) (hb : t < k.created)
    (hst : Steps k t k') : ∀ p < k'.created, ∀ r ∈ (k'.process p).children,
      ∃ c, Kin k' p c (k'.info r).tid := by
  have old : ∀ p < k.created, ∀ r ∈ (k.process p).children, ∃ c, Kin k' p c (k'.info r).tid := by
    intro p lt r mem
    obtain ⟨c, kin⟩ := family.child p lt r mem
    rw [hs.tid_child hst mem]
    exact ⟨c, kin.step hs hb hst⟩
  refine hst.forall_born hb ?_ ?_ ?_
  · intro p lt ne r mem
    rw [hst.frame.children p lt ne] at mem
    exact old p lt r mem
  · intro r mem
    rcases hst.children hb mem with was | ⟨tid, h⟩
    · exact old t hb r was
    · -- the record that `process_execute` puts in has the tid of the child it made
      obtain ⟨c, kin⟩ := family.made t hb tid (h ▸ rfl)
      have given := family.given t hb r tid (h ▸ rfl)
      have eq : k'.info = k.info := by cases hst <;> simp_all
      rw [eq, given]
      exact ⟨c, kin.step hs hb hst⟩
  · intro _ _ hm _ r mem
    simp [hm] at mem

theorem Family.once_step (hs : Sound k) (hb : t < k.created)
    (hst : Steps k t k') : ∀ p < k'.created, ∀ r ∈ (k'.process p).children,
      ∀ r' ∈ (k'.process p).children, (k'.info r).tid = (k'.info r').tid → r = r' := by
  have old : ∀ p < k.created, ∀ r ∈ (k.process p).children, ∀ r' ∈ (k.process p).children,
      (k'.info r).tid = (k'.info r').tid → r = r' := by
    intro p lt r mem r' member' eq
    rw [hs.tid_child hst mem, hs.tid_child hst member'] at eq
    exact family.once p lt r mem r' member' eq
  refine hst.forall_born hb ?_ ?_ ?_
  · intro p lt ne r mem r' member'
    rw [hst.frame.children p lt ne] at mem member'
    exact old p lt r mem r' member'
  · intro r mem r' member' eq
    have hf : ∀ r tid, k.pcs t = .pushBack r tid → ∀ r' ∈ (k.process t).children,
        (k'.info r).tid ≠ (k'.info r').tid := by
      intro r tid h r' member' eq
      have given := family.given t hb r tid (h ▸ rfl)
      have info : k'.info = k.info := by cases hst <;> simp_all
      rw [info, given] at eq
      exact family.linking t hb tid (h ▸ rfl) r' member' eq.symm
    rcases hst.children hb mem with was | ⟨tid, h⟩ <;>
      rcases hst.children hb member' with before' | ⟨tid', here'⟩
    · exact old t hb r was r' before' eq
    · exact absurd eq.symm (hf r' tid' here' r was)
    · exact absurd eq (hf r tid h r' before')
    · rw [h] at here'
      cases here'
      rfl
  · intro _ _ hm _ r mem
    simp [hm] at mem

theorem Family.made_step (hs : Sound k) (hb : t < k.created)
    (hst : Steps k t k') : ∀ p < k'.created, ∀ tid, (k'.pcs p).making = some tid →
      ∃ c, Kin k' p c tid := by
  refine hst.forall_born hb ?_ ?_ ?_
  · intro p lt ne tid making
    rw [pcs, hst.frame.pc p lt ne] at making
    obtain ⟨c, kin⟩ := family.made p lt tid making
    exact ⟨c, kin.step hs hb hst⟩
  · intro tid making
    rcases hst.making_old hb making with was | kin
    · obtain ⟨c, kin⟩ := family.made t hb tid was
      exact ⟨c, kin.step hs hb hst⟩
    · exact ⟨k.created, kin⟩
  · intro _ _ hm _ tid making
    simp [pcs, hm, Pc.making] at making

theorem Family.linking_step (hs : Sound k) (hb : t < k.created)
    (hst : Steps k t k') : ∀ p < k'.created, ∀ tid, (k'.pcs p).linking = some tid →
      ∀ r ∈ (k'.process p).children, (k'.info r).tid ≠ tid := by
  refine hst.forall_born hb ?_ ?_ ?_
  · intro p lt ne tid linking r mem
    rw [pcs, hst.frame.pc p lt ne] at linking
    rw [hst.frame.children p lt ne] at mem
    rw [hs.tid_child hst mem]
    exact family.linking p lt tid linking r mem
  · intro tid linking r mem
    obtain ⟨eq, was⟩ := hst.linking_old hb linking
    rw [eq] at mem
    rw [hs.tid_child hst mem]
    rcases was with was | rfl
    · exact family.linking t hb tid was r mem
    · grind
  · intro _ _ hm _ tid linking
    simp [pcs, hm, Pc.linking] at linking

theorem Family.step (hs : Sound k) (hb : t < k.created) (hst : Steps k t k') : Family k' where
  child := family.child_step hs hb hst
  once := family.once_step hs hb hst
  made := family.made_step hs hb hst
  linking := family.linking_step hs hb hst
  given := family.given_step hs hb hst
  found := by
    have grown := hst.frame.created
    refine hst.forall_born hb ?_ ?_ ?_
    · intro c lt ne p here
      rw [pcs, hst.frame.pc c lt ne] at here
      obtain ⟨bound', tid⟩ := family.found c lt p here
      rw [hst.frame.tid p bound', hst.frame.parentTid c lt ne]
      exact ⟨Nat.lt_of_lt_of_le bound' grown, tid⟩
    · intro p here
      obtain ⟨found, parentTid⟩ := hst.found_old hb here
      obtain ⟨hl, tid⟩ := mem_of_findThreadByTid found
      have lt := (hs.safe.listed p hl).1
      rw [hst.frame.tid p lt, parentTid]
      exact ⟨Nat.lt_of_lt_of_le lt grown, tid⟩
    · intro _ _ made _ p here
      simp [pcs, made] at here
  posts := by
    refine hst.forall_born hb ?_ ?_ ?_
    · intro c lt ne r posts
      rw [pcs, hst.frame.pc c lt ne] at posts
      rw [hs.tid_walked hst (Pc.walks_of_posts posts), hst.frame.tid c lt]
      exact family.posts c lt r posts
    · intro r posts
      obtain ⟨walks, was⟩ := hst.posts_old hb posts
      rw [hs.tid_walked hst walks, hst.frame.tid t hb]
      exact was.elim id (family.posts t hb r)
    · intro _ _ made _ r posts
      simp [pcs, made, Pc.posts] at posts

end

theorem family_boot : Family boot := by
  have only : ∀ p < boot.created, p = initialThread := fun p hb => Nat.lt_one_iff.mp hb
  constructor <;> intro p hb <;> rw [only p hb]
  case child => exact fun r mem => absurd mem List.not_mem_nil
  case once => exact fun r mem => absurd mem List.not_mem_nil
  all_goals exact nofun

end

end System

end Pintos.Userprog
