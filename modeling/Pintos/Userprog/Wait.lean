import Pintos.Lib.Cursor
import Pintos.Userprog.Family

/-!
# Exec, wait and exit agree

A child that exits leaves its status in the record its parent waits on. It finds
that record only if the parent has put it into its list before the child comes to
the end of the list, and `process_execute` does not see to that. In the runs where
it is so, `process_wait` blocks for a child that still runs and for nothing else,
and returns what it should.
-/

namespace Pintos.Userprog

open List

open Threads (ThreadPtr listNext)
open Cursor (rest)

/-- `process_exit` has done its work. -/
def Pc.finished : Pc → Bool
  | .exitDone | .gone => true
  | _ => false

/-- In `process_exit`, or past it. -/
def Pc.exiting : Pc → Bool
  | .lookup | .searchBegin _ | .searchTest _ _ | .searchNext _ _ | .storeStatus _ | .waitUp _
  | .exitDone | .gone => true
  | _ => false

/-- The tid a `process_wait` was called for. -/
def Pc.waits : Pc → Option Tid
  | .waitTest tid _ | .waitCheck tid _ | .waitDown tid _ | .waitRead tid _ => some tid
  | _ => none

/-- The record whose semaphore a `process_wait` is about to take down. -/
def Pc.downs : Pc → Option CiPtr
  | .waitDown _ ci => some ci
  | _ => none

/-- The record a `process_wait` is about to read the status from. -/
def Pc.reads : Pc → Option CiPtr
  | .waitRead _ ci => some ci
  | _ => none

/-- The record a `process_wait` has found, and the tid it looked for. -/
def Pc.chose : Pc → Option (Tid × CiPtr)
  | .waitCheck tid ci | .waitDown tid ci | .waitRead tid ci => some (tid, ci)
  | _ => none

theorem Pc.awaits_of_chose {pc : Pc} {tid : Tid} {ci : CiPtr} (h : pc.chose = some (tid, ci)) :
    pc.awaits = some ci := by
  cases pc <;> simp_all [Pc.chose, Pc.awaits]

theorem Pc.awaits_of_waited {pc : Pc} {ci : CiPtr} (h : pc.downs = some ci ∨ pc.reads = some ci) :
    pc.awaits = some ci := by
  cases pc <;> simp_all [Pc.downs, Pc.reads, Pc.awaits]

namespace System

/-- A search does not come to the end of its parent's list before the parent has
put the record there. -/
def LinkedFirst (k : System) (t : ThreadPtr) : Prop :=
  match k.pcs t with
  | .searchBegin found =>
    (k.process found).children = [] → (k.pcs found).linking ≠ some (k.process t).tid
  | .searchNext found ci =>
    listNext (k.process found).children ci = none →
      (k.pcs found).linking ≠ some (k.process t).tid
  | _ => True

instance (k : System) : DecidablePred k.LinkedFirst := by
  intro t
  unfold LinkedFirst
  split <;> infer_instance

section
variable {k k' : System} {t p c : ThreadPtr} {r : CiPtr} {tid : Tid}

theorem rest_listNext {l : List CiPtr} (nodup : l.Nodup) {e : CiPtr} :
    rest l (listNext l e) = (rest l (some e)).tail :=
  Cursor.rest_next nodup

theorem findThreadByTid_isSome (hl : p ∈ k.allList) :
    k.findThreadByTid (k.process p).tid ≠ none := by
  have general : ∀ (l : List ThreadPtr) (found : Option ThreadPtr), p ∈ l ∨ found ≠ none →
      l.foldl (fun found t => if (k.process t).tid = (k.process p).tid then some t else found)
        found ≠ none := by
    intro l
    induction l with
    | nil => exact fun found h => h.resolve_left not_mem_nil
    | cons a l ih => grind
  exact general k.allList none (.inl hl)

theorem Sound.lookup (hs : Sound k) (hl : p ∈ k.allList) :
    k.findThreadByTid (k.process p).tid = some p := by
  cases found : k.findThreadByTid (k.process p).tid with
  | none => exact absurd found (findThreadByTid_isSome hl)
  | some q =>
    obtain ⟨listed', same⟩ := mem_of_findThreadByTid found
    have eq := hs.numbered.distinct q (hs.safe.listed q listed').1 p
      (hs.safe.listed p hl).1 same
    rw [eq]

/-- A process whose record is not in the list yet has not come to the end of the list. -/
def Early (k : System) (p : ThreadPtr) : Pc → Prop
  | .searchTest found (some e) | .searchNext found e => found = p ∧ e ∈ (k.process p).children
  | .searchTest _ none | .storeStatus _ | .waitUp _ | .exitDone | .gone => False
  | _ => True

theorem Steps.early (hst : Steps k t k') (hs : Sound k) (family : Family k)
    (linked : k.LinkedFirst t) (kin : Kin k p t tid) (linking : (k.pcs p).linking = some tid)
    (early : Early k p (k.pcs t)) : Early k p (k'.pcs t) := by
  have ho : p < k.created := Nat.lt_trans kin.after kin.born
  have hl : p ∈ k.allList := by
    refine hs.safe.present p ho fun gone => ?_
    rw [gone] at linking
    cases linking
  have parent := kin.parent
  unfold LinkedFirst at linked
  cases hst with
  | create ci h =>
    simp [pcs, modify_process_ne _ _ (Nat.ne_of_lt kin.born), Early]
  | loadUp aux success h => cases success <;> simp [pcs, Early]
  | orphan h none =>
    rw [parent (by simp [h]), hs.lookup hl] at none
    cases none
  | searchBegin found h =>
    obtain ⟨hb, same⟩ := family.found t kin.born found h
    rw [parent (by simp [h])] at same
    obtain rfl := hs.numbered.distinct found hb p ho same
    rw [h] at linked
    have nonempty : (k.process found).children ≠ [] :=
      fun empty => linked empty (by rw [linking, kin.tid])
    obtain ⟨e, l, eq⟩ := exists_cons_of_ne_nil nonempty
    simp [pcs, eq, Early]
  | searchEnd found h =>
    rw [h] at early
    exact early.elim
  | searchHere found ci h same =>
    rw [h] at early
    rw [kin.tid] at same
    exact absurd same (family.linking p ho tid linking ci early.2)
  | searchPast found ci h =>
    rw [h] at early
    simpa [pcs, Early] using early
  | searchNext found ci h =>
    rw [h] at early linked
    obtain ⟨rfl, -⟩ := early
    cases next : listNext (k.process found).children ci with
    | none => exact absurd (by rw [linking, kin.tid]) (linked next)
    | some e => simpa [pcs, Early, next] using mem_of_listNext next
  | storeStatus ci h | waitUp ci h =>
    rw [h] at early
    exact early.elim
  | exitDone h =>
    rw [h] at early
    exact early.elim
  | _ => simp [pcs, Early]

theorem Early.congr (eq : (k'.process p).children = (k.process p).children) {pc : Pc}
    (early : Early k p pc) : Early k' p pc := by
  unfold Early at early ⊢
  split <;> simp_all

theorem Kin.unique (kin : Kin k p c tid) (hs : Sound k) {c' : ThreadPtr} (hb : c' < k.created)
    (eq : (k.process c').tid = tid) : c' = c :=
  hs.numbered.distinct c' hb c kin.born (eq.trans kin.tid.symm)

theorem early_step (hs : Sound k) (sound' : Sound k') (family : Family k)
    (inv : ∀ p < k.created, ∀ tid, (k.pcs p).linking = some tid →
      ∀ c < k.created, (k.process c).tid = tid → Early k p (k.pcs c))
    (hl : k.LinkedFirst t) (hb : t < k.created) (hst : Steps k t k') :
    ∀ p < k'.created, ∀ tid, (k'.pcs p).linking = some tid →
      ∀ c < k'.created, (k'.process c).tid = tid → Early k' p (k'.pcs c) := by
  have frame := hst.frame
  refine hst.forall_born hb ?_ ?_ ?_
  · intro p lt ne tid linking c bound' eq
    rw [pcs, frame.pc p lt ne] at linking
    obtain ⟨child, kin⟩ := family.made p lt tid (Pc.making_of_linking linking)
    obtain rfl := (kin.step hs hb hst).unique sound' bound' eq
    refine Early.congr (frame.children p lt ne) ?_
    by_cases own : c = t
    · subst own
      exact hst.early hs family hl kin linking (inv p lt tid linking c hb kin.tid)
    · rw [pcs, frame.pc c kin.born own]
      exact inv p lt tid linking c kin.born kin.tid
  · intro tid linking c bound' eq
    obtain ⟨children, was | new⟩ := hst.linking_old hb linking
    · obtain ⟨child, kin⟩ := family.made t hb tid (Pc.making_of_linking was)
      obtain rfl := (kin.step hs hb hst).unique sound' bound' eq
      rw [pcs, frame.pc c kin.born (Nat.ne_of_gt kin.after)]
      exact (inv t hb tid was c kin.born kin.tid).congr children
    · -- only the new process has the new tid, and it has not run yet
      have young : ¬ c < k.created := by grind
      rcases hst.created hb with ⟨created, -⟩ | ⟨ci, -, created, -, hm, -⟩
      · exact absurd (created ▸ bound') young
      · rw [created] at bound'
        obtain rfl := (Nat.lt_succ_iff_lt_or_eq.mp bound').resolve_left young
        simp [pcs, hm, Early]
  · intro _ _ hm _ tid linking
    simp [pcs, hm, Pc.linking] at linking

theorem Steps.unlinked_old (hst : Steps k t k') (hb : t < k.created)
    (unlinked : (k'.pcs t).unlinked = some r) :
    (k'.info r = { live := true }) ∨ (k.pcs t).unlinked = some r ∧
      (k'.info r).waited = (k.info r).waited ∧ (k'.info r).waitSema = (k.info r).waitSema := by
  cases hst with
  | allocate h =>
    have eq : k.allocated = r := by simpa [pcs, Pc.unlinked] using unlinked
    subst eq
    exact .inl (by simp)
  | create ci h =>
    rw [h]
    have eq : ci = r := by
      simpa [pcs, modify_process_ne _ _ (Nat.ne_of_lt hb), Pc.unlinked] using unlinked
    exact .inr ⟨by rw [eq]; rfl, rfl, rfl⟩
  | storeTid ci tid h =>
    rw [h]
    have eq : ci = r := by simpa [pcs, Pc.unlinked] using unlinked
    subst eq
    exact .inr ⟨rfl, by simp, by simp⟩
  | loadUp aux success => cases success <;> simp [pcs, Pc.unlinked] at unlinked
  | _ => simp [pcs, Pc.unlinked] at unlinked

theorem pristine_step (hs : Sound k)
    (inv : ∀ p < k.created, ∀ ci, (k.pcs p).unlinked = some ci →
      (k.info ci).waited = false ∧ (k.info ci).waitSema = 0)
    (hb : t < k.created) (hst : Steps k t k') :
    ∀ p < k'.created, ∀ ci, (k'.pcs p).unlinked = some ci →
      (k'.info ci).waited = false ∧ (k'.info ci).waitSema = 0 := by
  have frame := hst.frame
  refine hst.forall_born hb ?_ ?_ ?_
  · intro p lt ne ci unlinked
    rw [pcs, frame.pc p lt ne] at unlinked
    obtain ⟨allocated, -, nowhere⟩ := hs.safe.loose p ci (Pc.loose_of_unlinked unlinked)
    have unawaited : (k.pcs t).awaits ≠ some ci := fun h => nowhere t (hs.safe.awaits t ci h)
    have unposted : (k.pcs t).posts ≠ some ci :=
      fun h => hs.safe.unseen p t ci unlinked (Pc.walks_of_posts h)
    have hk := frame.info ci allocated
    rw [hk.waited.resolve_right unawaited,
      hk.waitSema.resolve_right (not_or.mpr ⟨unawaited, unposted⟩)]
    exact inv p lt ci unlinked
  · intro ci unlinked
    rcases hst.unlinked_old hb unlinked with new | ⟨was, waited, waitSema⟩
    · simp [new]
    · rw [waited, waitSema]
      exact inv t hb ci was
  · intro _ _ hm _ ci unlinked
    simp [pcs, hm, Pc.unlinked] at unlinked

/-- A `process_wait` has taken the semaphore of the record down. -/
def taken (k : System) (p : ThreadPtr) (r : CiPtr) : Bool :=
  (k.info r).waited && decide ((k.pcs p).downs ≠ some r)

/-- Where the owner `c` of a record in the list of `p` is on its way to it. -/
def Place (k : System) (p c : ThreadPtr) (r : CiPtr) : Pc → Prop
  | .searchBegin found => found = p
  | .searchTest found e => found = p ∧ r ∈ rest (k.process p).children e
  | .searchNext found e => found = p ∧ e ≠ r ∧ r ∈ rest (k.process p).children (some e)
  | .storeStatus e => e = r
  | .waitUp e => e = r ∧ (k.info r).exitStatus = (k.process c).exitStatus
  | .exitDone | .gone => (k.info r).exitStatus = (k.process c).exitStatus
  | _ => True

/-- The semaphore is up from the end of the child's `process_exit` until it is taken. -/
@[grind cases] structure Posted (k : System) (p c : ThreadPtr) (r : CiPtr) : Prop where
  place : Place k p c r (k.pcs c)
  count : (k.info r).waitSema + (k.taken p r).toNat = (k.pcs c).finished.toNat

theorem Place.congr {pc : Pc} (place : Place k p c r pc)
    (children : ∀ e, r ∈ rest (k.process p).children e → r ∈ rest (k'.process p).children e)
    (info : (k'.info r).exitStatus = (k.info r).exitStatus)
    (status : (k'.process c).exitStatus = (k.process c).exitStatus) : Place k' p c r pc := by
  unfold Place at place ⊢
  split <;> simp_all

/-- The list of a process grows and shrinks at its end only. -/
theorem Steps.rest_children (hst : Steps k t k') (hs : Sound k) (hb : t < k.created)
    (stays : r ∈ (k'.process t).children) {e : Option CiPtr}
    (ahead : r ∈ rest (k.process t).children e) : r ∈ rest (k'.process t).children e := by
  cases hst with
  | create => simpa [modify_process_ne _ _ (Nat.ne_of_lt hb)] using ahead
  | pushBack ci tid h => simpa using Cursor.mem_rest_append ahead
  | remove ci h =>
    obtain ⟨was, eq⟩ := hs.safe.last t ci (h ▸ rfl)
    have children : (k.process t).children = was ++ [ci] := eq
    have nodup : (was ++ [ci]).Nodup := by simpa [eq] using hs.safe.nodup t
    have hu : ci ∉ was := fun mem => (nodup_append.mp nodup).2.2 ci mem ci
      (mem_singleton_self ci) rfl
    have erased : (was ++ [ci]).erase ci = was := by
      rw [erase_append_right _ hu]
      simp
    simp only [modify_process_self, children, erased] at stays ⊢
    rw [children] at ahead
    exact Cursor.mem_rest_init ahead fun eq => hu (eq ▸ stays)
  | _ => simpa using ahead

/-- What the process that has the list does to the semaphore. -/
theorem Steps.count_parent (hst : Steps k t k') (hs : Sound k) (hb : t < k.created)
    (mem : r ∈ (k.process t).children) (unposted : (k.pcs t).posts ≠ some r)
    (waited : (k.pcs t).downs = some r → (k.info r).waited = true) :
    (k'.info r).waitSema + (k'.taken t r).toNat = (k.info r).waitSema + (k.taken t r).toNat := by
  have unloose : (k.pcs t).loose ≠ some r := fun loose => (hs.safe.loose t r loose).2.2 t mem
  cases hst with
  | allocate h =>
    have ne : r ≠ k.allocated := Nat.ne_of_lt (hs.safe.owned t r mem).1
    simp_all [taken, pcs, Pc.downs]
  | create ci h => simp_all [taken, pcs, Pc.downs, modify_process_ne _ _ (Nat.ne_of_lt hb)]
  | loadUp aux success h => cases success <;> simp_all [taken, pcs, Pc.downs]
  | waitFirst tid ci h unwaited =>
    by_cases eq : r = ci
    · subst eq
      simp_all [taken, pcs, Pc.downs]
    · simp_all [taken, pcs, Pc.downs, modifyInfo_info_ne k _ eq, Ne.symm eq]
  | waitDown tid ci h up =>
    by_cases eq : r = ci
    · subst eq
      have := waited (h ▸ rfl)
      simp_all [taken, pcs, Pc.downs]
      omega
    · simp_all [taken, pcs, Pc.downs, modifyInfo_info_ne k _ eq, Ne.symm eq]
  | notCreated ci h | free ci h | storeTid ci tid h =>
    have ne : r ≠ ci := fun eq => unloose (by rw [h, eq]; rfl)
    simp_all [taken, pcs, Pc.downs, modifyInfo_info_ne k _ ne]
  | storeStatus ci h | waitUp ci h =>
    have ne : r ≠ ci := fun eq => unposted (by rw [h, eq]; rfl)
    simp_all [taken, pcs, Pc.downs, modifyInfo_info_ne k _ ne]
  | _ => simp_all [taken, pcs, Pc.downs]

/-- The child ups the semaphore when it finishes. -/
theorem Steps.count_child (hst : Steps k t k') (hs : Sound k) (kin : Kin k p t (k.info r).tid)
    (hl : p ∈ k.allList) (mem : r ∈ (k.process p).children) (place : Place k p t r (k.pcs t)) :
    (k'.info r).waitSema + (k.pcs t).finished.toNat =
      (k.info r).waitSema + (k'.pcs t).finished.toNat := by
  have unloose : (k.pcs t).loose ≠ some r := fun loose => (hs.safe.loose t r loose).2.2 p mem
  have unawaited : (k.pcs t).awaits ≠ some r := fun awaits => Nat.ne_of_lt kin.after
    (hs.safe.owner p t r mem (hs.safe.awaits t r awaits))
  cases hst with
  | allocate h =>
    have ne : r ≠ k.allocated := Nat.ne_of_lt (hs.safe.owned p r mem).1
    simp_all [pcs, Pc.finished]
  | create ci h => simp_all [pcs, Pc.finished, modify_process_ne _ _ (Nat.ne_of_lt kin.born)]
  | loadUp aux success h => cases success <;> simp_all [pcs, Pc.finished]
  | waitFirst tid ci h unwaited | waitDown tid ci h up =>
    have ne : r ≠ ci := fun eq => unawaited (by rw [h, eq]; rfl)
    simp_all [pcs, Pc.finished, modifyInfo_info_ne k _ ne]
  | notCreated ci h | free ci h | storeTid ci tid h =>
    have ne : r ≠ ci := fun eq => unloose (by rw [h, eq]; rfl)
    simp_all [pcs, Pc.finished, modifyInfo_info_ne k _ ne]
  | searchEnd found h =>
    rw [h] at place
    cases place.2
  | orphan h none =>
    rw [kin.parent (by simp [h]), hs.lookup hl] at none
    cases none
  | storeStatus ci h =>
    rw [h] at place
    obtain rfl := place
    simp_all [pcs, Pc.finished]
  | waitUp ci h =>
    rw [h] at place
    obtain ⟨rfl, -⟩ := place
    simp_all [pcs, Pc.finished]
  | _ => simp_all [pcs, Pc.finished]

theorem Steps.place (hst : Steps k t k') (hs : Sound k) (family : Family k)
    (kin : Kin k p t (k.info r).tid) (hl : p ∈ k.allList) (mem : r ∈ (k.process p).children)
    (place : Place k p t r (k.pcs t)) : Place k' p t r (k'.pcs t) := by
  have ho : p < k.created := Nat.lt_trans kin.after kin.born
  have other : p ≠ t := Nat.ne_of_lt kin.after
  have children := hst.frame.children p ho other
  cases hst with
  | create ci h => simp [pcs, modify_process_ne _ _ (Nat.ne_of_lt kin.born), Place]
  | loadUp aux success h => cases success <;> simp [pcs, Place]
  | orphan h none =>
    rw [kin.parent (by simp [h]), hs.lookup hl] at none
    cases none
  | lookup found h some =>
    rw [kin.parent (by simp [h]), hs.lookup hl] at some
    simpa [pcs, Place] using (Option.some.inj some).symm
  | searchBegin found h =>
    rw [h] at place
    obtain rfl : found = p := place
    simpa [pcs, Place, modify_process_ne _ _ other] using mem
  | searchEnd found h =>
    rw [h] at place
    cases place.2
  | searchHere found ci h same =>
    rw [h] at place
    obtain ⟨-, ahead⟩ := place
    have eq := family.once p ho ci (Cursor.mem_of_mem_rest ahead) r mem (same.trans kin.tid)
    simpa [pcs, Place] using eq
  | searchPast found ci h differs =>
    rw [h] at place
    have ne : ci ≠ r := fun eq => differs (by rw [eq, kin.tid])
    simpa [pcs, Place, modify_process_ne _ _ other] using ⟨place.1, ne, place.2⟩
  | searchNext found ci h =>
    rw [h] at place
    obtain ⟨rfl, ne, ahead⟩ := place
    have next : r ∈ (rest (k.process found).children (some ci)).tail := by
      rw [Cursor.rest_eq_cons (Cursor.mem_of_mem_rest ahead)] at ahead
      exact (mem_cons.mp ahead).resolve_left (Ne.symm ne)
    have nodup : (k.process found).children.Nodup := hs.safe.nodup found
    rw [← rest_listNext nodup] at next
    simpa [pcs, Place, modify_process_ne _ _ other] using next
  | storeStatus ci h =>
    rw [h] at place
    obtain rfl : ci = r := place
    simp [pcs, Place]
  | waitUp ci h =>
    rw [h] at place
    obtain ⟨rfl, status⟩ := place
    simpa [pcs, Place] using status
  | exitDone h =>
    rw [h] at place
    simpa [pcs, Place] using place
  | _ => simp [pcs, Place]

/-- What a `process_wait` knows of the records. -/
structure Waiting (k : System) (p : ThreadPtr) : Prop where
  ahead : ∀ tid e, k.pcs p = .waitTest tid e → ∀ r ∈ (k.process p).children,
    (k.info r).tid = tid → r ∈ rest (k.process p).children e
  chose : ∀ tid r, (k.pcs p).chose = some (tid, r) → (k.info r).tid = tid
  waited : ∀ r, (k.pcs p).downs = some r ∨ (k.pcs p).reads = some r → (k.info r).waited = true
  unwaited : ∀ r, (k.pcs p).linked = some r → (k.info r).waited = false

/-- The invariant of the runs in which records are linked first. -/
structure Agreeing (k : System) : Prop where
  early : ∀ p < k.created, ∀ tid, (k.pcs p).linking = some tid →
    ∀ c < k.created, (k.process c).tid = tid → Early k p (k.pcs c)
  pristine : ∀ p < k.created, ∀ ci, (k.pcs p).unlinked = some ci →
    (k.info ci).waited = false ∧ (k.info ci).waitSema = 0
  waiting : ∀ p < k.created, Waiting k p
  posted : ∀ p ∈ k.allList, ∀ r ∈ (k.process p).children, ∀ c < k.created,
    (k.process c).tid = (k.info r).tid → Posted k p c r

theorem Early.place {pc : Pc} (early : Early k p pc) (loose : r ∉ (k.process p).children)
    (children : (k'.process p).children = (k.process p).children ++ [r])
    (begins : ∀ found, pc = .searchBegin found → found = p) :
    Place k' p c r pc ∧ pc.finished = false := by
  cases pc with
  | searchBegin found => exact ⟨begins found rfl, rfl⟩
  | searchTest found e =>
    cases e with
    | none => exact early.elim
    | some e =>
      obtain ⟨rfl, hi⟩ := early
      refine ⟨⟨rfl, ?_⟩, rfl⟩
      rw [children]
      exact Cursor.mem_rest_of_last hi
  | searchNext found e =>
    obtain ⟨rfl, hi⟩ := early
    refine ⟨⟨rfl, fun eq => loose (eq ▸ hi), ?_⟩, rfl⟩
    rw [children]
    exact Cursor.mem_rest_of_last hi
  | storeStatus | waitUp | exitDone | gone => exact early.elim
  | _ => exact ⟨trivial, rfl⟩

/-- Nobody but its owner posts a record. -/
theorem Family.owner_posts (family : Family k) (hs : Sound k) (hb : t < k.created)
    (kin : Kin k p c (k.info r).tid) (posts : (k.pcs t).posts = some r) : t = c :=
  kin.unique hs hb (family.posts t hb r posts).symm

theorem posted_old (agreeing : Agreeing k) (hs : Sound k) (sound' : Sound k') (family : Family k)
    (hb : t < k.created) (hst : Steps k t k') (ho : p < k.created) (listed' : p ∈ k'.allList)
    (mem : r ∈ (k.process p).children) (stays : r ∈ (k'.process p).children)
    (born' : c < k'.created) (eq : (k'.process c).tid = (k'.info r).tid) : Posted k' p c r := by
  have frame := hst.frame
  have hl := frame.listed p ho listed'
  rw [hs.tid_child hst mem] at eq
  obtain ⟨child, kin⟩ := family.child p ho r mem
  obtain rfl := (kin.step hs hb hst).unique sound' born' eq
  have posted := agreeing.posted p hl r mem c kin.born kin.tid
  have hk := frame.info r (hs.safe.owned p r mem).1
  have ne : p ≠ c := Nat.ne_of_lt kin.after
  by_cases isParent : p = t
  · subst isParent
    have unposted : (k.pcs p).posts ≠ some r :=
      fun posts => ne (family.owner_posts hs hb kin posts)
    have count := hst.count_parent hs hb mem unposted
      fun downs => (agreeing.waiting p hb).waited r (.inl downs)
    have pc : k'.pcs c = k.pcs c := frame.pc c kin.born ne.symm
    refine ⟨?_, by rw [count, pc]; exact posted.count⟩
    rw [pc]
    exact posted.place.congr (fun e => hst.rest_children hs hb stays)
      (hk.exitStatus.resolve_right unposted) (frame.exitStatus c kin.born ne.symm)
  · have unawaited : (k.pcs t).awaits ≠ some r := fun awaits =>
      isParent (hs.safe.owner p t r mem (hs.safe.awaits t r awaits))
    have taken : k'.taken p r = k.taken p r := by
      unfold System.taken pcs
      rw [frame.pc p ho isParent, hk.waited.resolve_right unawaited]
    by_cases isChild : c = t
    · subst isChild
      have count := hst.count_child hs kin hl mem posted.place
      refine ⟨hst.place hs family kin hl mem posted.place, ?_⟩
      rw [taken]
      have := posted.count
      omega
    · have unposted : (k.pcs t).posts ≠ some r :=
        fun posts => isChild (family.owner_posts hs hb kin posts).symm
      have pc : k'.pcs c = k.pcs c := frame.pc c kin.born isChild
      refine ⟨?_, ?_⟩
      · rw [pc]
        refine posted.place.congr (fun e ahead => ?_) (hk.exitStatus.resolve_right unposted)
          (frame.exitStatus c kin.born isChild)
        rwa [frame.children p ho isParent]
      · grind

theorem posted_step (agreeing : Agreeing k) (hs : Sound k) (sound' : Sound k')
    (family : Family k) (hb : t < k.created) (hst : Steps k t k') :
    ∀ p ∈ k'.allList, ∀ r ∈ (k'.process p).children, ∀ c < k'.created,
      (k'.process c).tid = (k'.info r).tid → Posted k' p c r := by
  have frame := hst.frame
  have each : ∀ p < k'.created, p ∈ k'.allList → ∀ r ∈ (k'.process p).children,
      ∀ c < k'.created, (k'.process c).tid = (k'.info r).tid → Posted k' p c r := by
    refine hst.forall_born hb ?_ ?_ ?_
    · intro p ho ne hl r stays c born' eq
      have mem := frame.children p ho ne ▸ stays
      exact posted_old agreeing hs sound' family hb hst ho hl mem stays born' eq
    · intro hl r stays c born' eq
      rcases hst.children hb stays with mem | ⟨tid, h⟩
      · exact posted_old agreeing hs sound' family hb hst hb hl mem stays born' eq
      · -- the record is new in the list, and its owner has not come to the end yet
        have linking : (k.pcs t).linking = some tid := by rw [h]; rfl
        have unlinked : (k.pcs t).unlinked = some r := by rw [h]; rfl
        obtain ⟨child, kin⟩ := family.made t hb tid (Pc.making_of_linking linking)
        have info : k'.info = k.info := by cases hst <;> simp_all
        rw [info, family.given t hb r tid (h ▸ rfl)] at eq
        obtain rfl := (kin.step hs hb hst).unique sound' born' eq
        have pc : k'.pcs c = k.pcs c := frame.pc c kin.born (Nat.ne_of_gt kin.after)
        have children : (k'.process t).children = (k.process t).children ++ [r] := by
          cases hst <;> simp_all
        obtain ⟨place, running⟩ :=
          (agreeing.early t hb tid linking c kin.born kin.tid).place (c := c)
          ((hs.safe.loose t r (Pc.loose_of_unlinked unlinked)).2.2 t) children (by
            intro found begins
            obtain ⟨lt, parent⟩ := family.found c kin.born found begins
            rw [kin.parent (by simp [begins])] at parent
            exact hs.numbered.distinct found lt t hb parent)
        obtain ⟨unwaited, down⟩ := agreeing.pristine t hb r unlinked
        refine ⟨pc ▸ place, ?_⟩
        rw [pc, running, info, down]
        simp [taken, info, unwaited]
    · intro _ _ hm _ _ r mem
      simp [hm] at mem
  intro p hl
  exact each p (sound'.safe.listed p hl).1 hl

theorem Sound.waited_child (hs : Sound k) (hst : Steps k t k')
    (mem : r ∈ (k.process p).children) (ne : p ≠ t) : (k'.info r).waited = (k.info r).waited := by
  refine (hst.frame.info r (hs.safe.owned p r mem).1).waited.resolve_right fun awaits => ?_
  exact ne (hs.safe.owner p t r mem (hs.safe.awaits t r awaits))

theorem Sound.mem_of_linked (hs : Sound k) (hl : (k.pcs p).linked = some r) :
    r ∈ (k.process p).children := by
  obtain ⟨was, eq⟩ := hs.safe.last p r hl
  have mem : r ∈ k.shape.children p := by simp [eq]
  exact mem

theorem Waiting.frame (waiting : Waiting k p) (hs : Sound k) (hst : Steps k t k')
    (hb : p < k.created) (ne : p ≠ t) : Waiting k' p := by
  have pc : k'.pcs p = k.pcs p := hst.frame.pc p hb ne
  have children := hst.frame.children p hb ne
  refine ⟨?_, ?_, ?_, ?_⟩
  · intro tid e hp r mem eq
    rw [children] at mem ⊢
    rw [hs.tid_child hst mem] at eq
    exact waiting.ahead tid e (pc ▸ hp) r mem eq
  · intro tid r chose
    rw [pc] at chose
    rw [hs.tid_child hst (hs.safe.awaits p r (Pc.awaits_of_chose chose))]
    exact waiting.chose tid r chose
  · intro r h
    rw [pc] at h
    rw [hs.waited_child hst (hs.safe.awaits p r (Pc.awaits_of_waited h)) ne]
    exact waiting.waited r h
  · intro r hl
    rw [pc] at hl
    rw [hs.waited_child hst (hs.mem_of_linked hl) ne]
    exact waiting.unwaited r hl

theorem Waiting.own (waiting : Waiting k t) (hs : Sound k) (hb : t < k.created)
    (pristine : ∀ ci, (k.pcs t).unlinked = some ci →
      (k.info ci).waited = false ∧ (k.info ci).waitSema = 0)
    (hst : Steps k t k') : Waiting k' t := by
  cases hst with
  | wait tid h =>
    constructor <;> simp +contextual [pcs, Pc.chose, Pc.downs, Pc.reads, Pc.linked]
  | create =>
    constructor <;> simp [pcs, Pc.chose, Pc.downs, Pc.reads, Pc.linked,
      modify_process_ne _ _ (Nat.ne_of_lt hb)]
  | pushBack ci tid h =>
    have unwaited := (pristine ci (h ▸ rfl)).1
    constructor <;> simp [pcs, Pc.chose, Pc.downs, Pc.reads, Pc.linked, unwaited]
  | loadDown ci tid h | notLoaded ci tid h =>
    have unwaited := waiting.unwaited ci (h ▸ rfl)
    constructor <;> simp [pcs, Pc.chose, Pc.downs, Pc.reads, Pc.linked, unwaited]
  | loadUp aux success =>
    cases success <;> constructor <;> simp [pcs, Pc.chose, Pc.downs, Pc.reads, Pc.linked]
  | waitHere tid ci h same =>
    constructor <;> simp [pcs, Pc.chose, Pc.downs, Pc.reads, Pc.linked, same]
  | waitNext tid ci h differs =>
    have nodup : (k.process t).children.Nodup := hs.safe.nodup t
    constructor
    case ahead =>
      intro tid' e here' r mem same
      obtain ⟨rfl, rfl⟩ : tid = tid' ∧ _ = e := by simpa [pcs] using here'
      simp only [goto, modify_process_self] at mem ⊢
      have ahead := waiting.ahead tid _ h r mem same
      rw [rest_listNext nodup]
      rw [Cursor.rest_eq_cons (Cursor.mem_of_mem_rest ahead)] at ahead
      exact (mem_cons.mp ahead).resolve_left fun eq => differs (eq ▸ same)
    all_goals simp [pcs, Pc.chose, Pc.downs, Pc.reads, Pc.linked]
  | waitFirst tid ci h =>
    have same := waiting.chose tid ci (h ▸ rfl)
    constructor <;> simp [pcs, Pc.chose, Pc.downs, Pc.reads, Pc.linked, same]
  | waitDown tid ci h =>
    have same := waiting.chose tid ci (h ▸ rfl)
    have waited := waiting.waited ci (.inl (h ▸ rfl))
    constructor <;> simp [pcs, Pc.chose, Pc.downs, Pc.reads, Pc.linked, same, waited]
  | _ => constructor <;> simp [pcs, Pc.chose, Pc.downs, Pc.reads, Pc.linked]

theorem Agreeing.step (agreeing : Agreeing k) (hs : Sound k) (sound' : Sound k') (family : Family k)
    (hl : k.LinkedFirst t) (hb : t < k.created) (hst : Steps k t k') : Agreeing k' where
  early := early_step hs sound' family agreeing.early hl hb hst
  pristine := pristine_step hs agreeing.pristine hb hst
  waiting := by
    refine hst.forall_born hb ?_ ?_ ?_
    · exact fun p lt ne => (agreeing.waiting p lt).frame hs hst lt ne
    · exact (agreeing.waiting t hb).own hs hb (agreeing.pristine t hb) hst
    · intro _ _ hm _
      constructor <;> simp [pcs, hm, Pc.chose, Pc.downs, Pc.reads, Pc.linked]
  posted := posted_step agreeing hs sound' family hb hst

theorem agreeing_boot : Agreeing boot := by
  have only : ∀ p < boot.created, p = initialThread := fun p hb => Nat.lt_one_iff.mp hb
  constructor
  case posted =>
    intro p hl r mem
    rw [mem_singleton.mp hl] at mem
    cases mem
  case waiting =>
    intro p hb
    rw [only p hb]
    constructor <;> simp [pcs, boot, Pc.chose, Pc.downs, Pc.reads, Pc.linked]
  all_goals
    intro p hb
    rw [only p hb]
    rintro _ ⟨⟩

end

/-! ### What the processes see -/

/-- What a process gets from a call, and the status it exits with. -/
inductive Observation where
  | executed (p : ThreadPtr) (tid : Tid)
  | returned (p : ThreadPtr) (tid : Tid) (status : Int)
  | exited (c : ThreadPtr) (status : Int)
  deriving DecidableEq

/-- What the next step of a process lets it see. A process whose program cannot be
loaded exits with -1. -/
def reports (k : System) (t : ThreadPtr) : List Observation :=
  match k.pcs t with
  | .loadCheck _ tid => if (k.process t).aux.loadSuccess then [.executed t tid] else []
  | .loadUp _ false => [.exited t (-1)]
  | .waitTest tid none => [.returned t tid (-1)]
  | .waitCheck tid ci => if (k.info ci).waited then [.returned t tid (-1)] else []
  | .waitRead tid ci => [.returned t tid (k.info ci).exitStatus]
  | _ => []

/-- A process that is killed exits with -1. -/
def observe (k : System) : Event → List Observation
  | .request t (.exit status) => [.exited t (status.getD (-1))]
  | .request _ _ => []
  | .exec t _ => k.reports t

/-- How a process stands with a tid: not its child, a child it has not waited for, or
one it has. -/
inductive Standing where
  | stranger
  | due
  | settled
  deriving DecidableEq

def Observation.update (p : ThreadPtr) (tid : Tid) (s : Standing) : Observation → Standing
  | .executed p' tid' => if p' = p ∧ tid' = tid then .due else s
  | .returned p' tid' _ => if p' = p ∧ tid' = tid ∧ s = .due then .settled else s
  | .exited _ _ => s

/-- The standing after what has been seen, newest first. -/
def standing (p : ThreadPtr) (tid : Tid) (seen : List Observation) : Standing :=
  seen.foldr (fun o s => Observation.update p tid s o) .stranger

section
variable {k k' : System} {t p c : ThreadPtr} {r : CiPtr} {tid : Tid} {seen : List Observation}

/-- A `process_wait` has returned the status of the record. -/
def answered (k : System) (p : ThreadPtr) (r : CiPtr) : Prop :=
  (k.info r).waited = true ∧ (k.pcs p).downs ≠ some r ∧ (k.pcs p).reads ≠ some r

/-- What the standing says of the records. A record is not counted while the
`process_execute` that made it has not returned. -/
def Counted (k : System) (p : ThreadPtr) (tid : Tid) : Standing → Prop
  | .stranger => ∀ r ∈ (k.process p).children, (k.info r).tid = tid → (k.pcs p).linked = some r
  | .due => ∃ r ∈ (k.process p).children, (k.info r).tid = tid ∧ (k.pcs p).linked ≠ some r ∧
      ¬ k.answered p r
  | .settled => ∃ r ∈ (k.process p).children, (k.info r).tid = tid ∧ (k.pcs p).linked ≠ some r ∧
      k.answered p r

theorem standing_observe {e : Event} (h : k.step e = some k') :
    standing p tid (k.observe e ++ seen) =
    (k.reports e.actor).foldr (fun o s => Observation.update p tid s o) (standing p tid seen) := by
  unfold standing
  rw [foldr_append]
  cases e with
  | exec t ok => rfl
  | request t r =>
    simp only [System.step] at h
    split_ifs at h with hi
    have silent : k.reports t = [] := by simp [reports, pcs, hi.2]
    cases r <;> simp [observe, Event.actor, silent, Observation.update]

theorem reports_others (ne : p ≠ t) (s : Standing) :
    (k.reports t).foldr (fun o s => Observation.update p tid s o) s = s := by
  unfold reports
  split <;> (try split_ifs) <;> simp [Observation.update, Ne.symm ne]

theorem Counted.congr {s : Standing} (hc : Counted k p tid s)
    (children : (k'.process p).children = (k.process p).children)
    (number : ∀ r ∈ (k.process p).children, (k'.info r).tid = (k.info r).tid)
    (hl : (k'.pcs p).linked = (k.pcs p).linked)
    (same : ∀ r ∈ (k.process p).children, (k.info r).tid = tid →
      (k'.answered p r ↔ k.answered p r)) :
    Counted k' p tid s := by
  cases s with
  | stranger =>
    intro r mem eq
    rw [children] at mem
    rw [number r mem] at eq
    rw [hl]
    exact hc r mem eq
  | due | settled =>
    obtain ⟨r, mem, eq, unlinked, answered⟩ := hc
    refine ⟨r, children ▸ mem, (number r mem).trans eq, hl ▸ unlinked, ?_⟩
    rwa [same r mem eq]

theorem Counted.others {s : Standing} (hc : Counted k p tid s) (hs : Sound k)
    (sound' : Sound k') (hb : t < k.created) (hst : Steps k t k') (ne : p ≠ t) :
    Counted k' p tid s := by
  by_cases lt : p < k.created
  · have pc : k'.pcs p = k.pcs p := hst.frame.pc p lt ne
    refine hc.congr (hst.frame.children p lt ne)
      (fun r mem => hs.tid_child hst mem) (by rw [pc]) fun r mem _ => ?_
    unfold answered
    rw [pc, hs.waited_child hst mem ne]
  · -- a process that is not there yet has no records
    have childless : (k.process p).children = [] := (hs.safe.unborn p (Nat.le_of_not_lt lt)).1
    have stranger : s = .stranger := by cases s <;> simp_all [Counted]
    subst stranger
    have childless' : (k'.process p).children = [] := by
      by_cases bound' : p < k'.created
      · rcases hst.created hb with ⟨created, -⟩ | ⟨ci, -, created, -, hm, -⟩
        · exact absurd (created ▸ bound') lt
        · grind
      · exact (sound'.safe.unborn p (Nat.le_of_not_lt bound')).1
    intro r mem
    rw [childless'] at mem
    cases mem

theorem not_due_at_end {s : Standing} (hc : Counted k p tid s) (waiting : Waiting k p)
    (h : k.pcs p = .waitTest tid none) : s ≠ .due := by
  rintro rfl
  obtain ⟨r, mem, eq, -⟩ := hc
  cases waiting.ahead tid none h r mem eq

theorem not_due_again {s : Standing} (hc : Counted k p tid s) (waiting : Waiting k p)
    (hs : Sound k) (family : Family k) (hb : p < k.created)
    (h : k.pcs p = .waitCheck tid r) (waited : (k.info r).waited = true) : s ≠ .due := by
  rintro rfl
  obtain ⟨r', mem, eq, -, unanswered⟩ := hc
  have same := waiting.chose tid r (h ▸ rfl)
  have member' := hs.safe.awaits p r (h ▸ rfl)
  obtain rfl := family.once p hb r' mem r member' (eq.trans same.symm)
  exact unanswered ⟨waited, by simp [h, Pc.downs], by simp [h, Pc.reads]⟩

theorem due_at_read {s : Standing} (hc : Counted k p tid s) (waiting : Waiting k p) (hs : Sound k)
    (family : Family k) (hb : p < k.created) (h : k.pcs p = .waitRead tid r) : s = .due := by
  have same := waiting.chose tid r (h ▸ rfl)
  have mem := hs.safe.awaits p r (h ▸ rfl)
  cases s with
  | due => rfl
  | stranger =>
    have hl := hc r mem same
    rw [h] at hl
    cases hl
  | settled =>
    obtain ⟨r', member', eq, -, answered⟩ := hc
    obtain rfl := family.once p hb r' member' r mem (eq.trans same.symm)
    exact absurd (h ▸ rfl) answered.2.2

section
variable {s : Standing} {ci : CiPtr} {tid' : Tid}

section
variable (hc : Counted k t tid s)
include hc

theorem Counted.pushBack (hs : Sound k) (h : k.pcs t = .pushBack ci tid') :
    Counted (k.modify t fun p => { p with
      children := p.children ++ [ci], pc := .loadDown ci tid' }) t tid s := by
  have nowhere := (hs.safe.loose t ci (h ▸ rfl)).2.2 t
  cases s with
  | stranger =>
    intro r mem eq
    simp only [modify_process_self, mem_append, mem_singleton] at mem
    rcases mem with old | rfl
    · have hl := hc r old eq
      rw [h] at hl
      cases hl
    · simp [pcs, Pc.linked]
  | due | settled =>
    obtain ⟨r, mem, eq, -, answer⟩ := hc
    have ne : ci ≠ r := fun same => nowhere (same ▸ mem)
    refine ⟨r, by simp [mem], eq, by simpa [pcs, Pc.linked] using ne, ?_⟩
    unfold answered at answer ⊢
    rw [h] at answer
    simpa [pcs, Pc.downs, Pc.reads] using answer

theorem Counted.loaded (hs : Sound k) (family : Family k)
    (waiting : Waiting k t) (hb : t < k.created) (h : k.pcs t = .loadCheck ci tid') :
    Counted (k.goto t .running) t tid (Observation.update t tid s (.executed t tid')) := by
  have same := family.given t hb ci tid' (h ▸ rfl)
  have hl : (k.pcs t).linked = some ci := by rw [h]; rfl
  simp only [Observation.update, true_and]
  split_ifs with eq
  · subst eq
    have unwaited := waiting.unwaited ci hl
    refine ⟨ci, by simpa using hs.mem_of_linked hl, same, by simp [pcs, Pc.linked], ?_⟩
    exact fun answer => absurd answer.1 (by simp [unwaited])
  · cases s with
    | stranger =>
      intro r mem number
      have this := hc r (by simpa using mem) number
      rw [hl] at this
      cases this
      exact absurd (same.symm.trans number) eq
    | due | settled =>
      obtain ⟨r, mem, number, -, answer⟩ := hc
      refine ⟨r, by simpa using mem, number, by simp [pcs, Pc.linked], ?_⟩
      unfold answered at answer ⊢
      rw [h] at answer
      simpa [pcs, Pc.downs, Pc.reads] using answer

theorem Counted.remove (hs : Sound k) (h : k.pcs t = .remove ci) :
    Counted (k.modify t fun p => { p with
      children := p.children.erase ci, pc := .free ci }) t tid s := by
  have hl : (k.pcs t).linked = some ci := by rw [h]; rfl
  have nodup : (k.process t).children.Nodup := hs.safe.nodup t
  cases s with
  | stranger =>
    intro r mem number
    simp only [modify_process_self] at mem
    obtain ⟨ne, old⟩ := nodup.mem_erase_iff.mp mem
    have this := hc r old number
    rw [hl] at this
    cases this
    exact absurd rfl ne
  | due | settled =>
    obtain ⟨r, mem, number, unlinked, answer⟩ := hc
    have ne : r ≠ ci := fun eq => unlinked (eq ▸ hl)
    refine ⟨r, by simpa using nodup.mem_erase_iff.mpr ⟨ne, mem⟩, number,
      by simp [pcs, Pc.linked], ?_⟩
    unfold answered at answer ⊢
    rw [h] at answer
    simpa [pcs, Pc.downs, Pc.reads] using answer

theorem Counted.waitFirst (h : k.pcs t = .waitCheck tid' ci)
    (unwaited : (k.info ci).waited = false) :
    Counted ((k.modifyInfo ci fun r => { r with waited := true }).goto t (.waitDown tid' ci))
      t tid s := by
  refine hc.congr (by simp) (fun r _ => ?_) (by rw [h]; simp [pcs, Pc.linked]) fun r _ _ => ?_
  · by_cases eq : r = ci
    · subst eq
      simp
    · simp [modifyInfo_info_ne k _ eq]
  · unfold answered
    rw [h]
    by_cases eq : r = ci
    · subst eq
      simp [pcs, Pc.downs, unwaited]
    · simp [pcs, Pc.downs, Pc.reads, modifyInfo_info_ne k _ eq, Ne.symm eq]

theorem Counted.waitDown (h : k.pcs t = .waitDown tid' ci) (v : Nat) :
    Counted ((k.modifyInfo ci fun r => { r with waitSema := v }).goto t (.waitRead tid' ci))
      t tid s := by
  refine hc.congr (by simp) (fun r _ => ?_) (by rw [h]; simp [pcs, Pc.linked]) fun r _ _ => ?_
  · by_cases eq : r = ci
    · subst eq
      simp
    · simp [modifyInfo_info_ne k _ eq]
  · unfold answered
    rw [h]
    by_cases eq : r = ci
    · subst eq
      simp [pcs, Pc.downs, Pc.reads]
    · simp [pcs, Pc.downs, Pc.reads, modifyInfo_info_ne k _ eq, Ne.symm eq]

theorem Counted.waitRead (hs : Sound k) (family : Family k)
    (waiting : Waiting k t) (hb : t < k.created) (h : k.pcs t = .waitRead tid' ci) (v : Int) :
    Counted (k.goto t .running) t tid (Observation.update t tid s (.returned t tid' v)) := by
  have same := waiting.chose tid' ci (h ▸ rfl)
  by_cases eq : tid' = tid
  · subst eq
    obtain rfl := due_at_read hc waiting hs family hb h
    have waited := waiting.waited ci (.inr (h ▸ rfl))
    simp only [Observation.update, and_self, if_true]
    have mem : ci ∈ (k.process t).children := hs.safe.awaits t ci (h ▸ rfl)
    exact ⟨ci, by simpa using mem, same, by simp [pcs, Pc.linked], waited,
      by simp [pcs, Pc.downs], by simp [pcs, Pc.reads]⟩
  · simp only [Observation.update, eq, false_and, and_false, if_false]
    refine hc.congr (by simp) (fun r _ => rfl) (by rw [h]; simp [pcs, Pc.linked]) ?_
    intro r _ number
    have ne : ci ≠ r := fun eq' => eq (same.symm.trans (eq' ▸ number))
    unfold answered
    rw [h]
    simp [pcs, Pc.downs, Pc.reads, ne]

theorem Counted.unanswered (v : Int)
    (hq : (k.pcs t).downs = none ∧ (k.pcs t).reads = none ∧ (k.pcs t).linked = none)
    (notDue : tid' = tid → s ≠ .due) :
    Counted (k.goto t .running) t tid (Observation.update t tid s (.returned t tid' v)) := by
  have eq : Observation.update t tid s (.returned t tid' v) = s := by
    simp only [Observation.update, true_and]
    exact if_neg fun both => notDue both.1 both.2
  rw [eq]
  obtain ⟨downs, reads, hl⟩ := hq
  refine hc.congr (by simp) (fun r _ => rfl) (by rw [hl]; simp [pcs, Pc.linked]) ?_
  intro r _ _
  unfold answered
  rw [downs, reads]
  simp [pcs, Pc.downs, Pc.reads]

end

end

theorem Counted.own {s : Standing} (hc : Counted k t tid s) (agreeing : Agreeing k)
    (hs : Sound k) (family : Family k) (hb : t < k.created) (hst : Steps k t k') :
    Counted k' t tid ((k.reports t).foldr (fun o s => Observation.update t tid s o) s) := by
  have waiting := agreeing.waiting t hb
  have number : ∀ r ∈ (k.process t).children, (k'.info r).tid = (k.info r).tid :=
    fun r mem => hs.tid_child hst mem
  have hk : (k.pcs t).awaits = none → ∀ r ∈ (k.process t).children,
      (k'.info r).waited = (k.info r).waited := by
    intro free r mem
    exact (hst.frame.info r (hs.safe.owned t r mem).1).waited.resolve_right (by simp [free])
  cases hst with
  | pushBack ci tid' h => simpa [reports, h] using hc.pushBack hs h
  | loaded ci tid' h success =>
    simpa [reports, h, success] using hc.loaded hs family waiting hb h
  | remove ci h => simpa [reports, h] using hc.remove hs h
  | waitEnd tid' h =>
    have hq : (k.pcs t).downs = none ∧ (k.pcs t).reads = none ∧ (k.pcs t).linked = none := by
      simp [h, Pc.downs, Pc.reads, Pc.linked]
    simpa [reports, h] using hc.unanswered (-1) hq fun (eq : tid' = tid) =>
      not_due_at_end hc waiting (eq ▸ h)
  | waitAgain tid' ci h waited =>
    have hq : (k.pcs t).downs = none ∧ (k.pcs t).reads = none ∧ (k.pcs t).linked = none := by
      simp [h, Pc.downs, Pc.reads, Pc.linked]
    simpa [reports, h, waited] using hc.unanswered (-1) hq fun (eq : tid' = tid) =>
      not_due_again hc waiting hs family hb (eq ▸ h) waited
  | waitRead tid' ci h =>
    simpa [reports, h] using hc.waitRead hs family waiting hb h _
  | waitFirst tid' ci h unwaited =>
    simpa [reports, h, unwaited] using hc.waitFirst h unwaited
  | waitDown tid' ci h => simpa [reports, h] using hc.waitDown h _
  | create ci h =>
    have silent : k.reports t = [] := by simp [reports, h]
    rw [silent]
    refine hc.congr ?_ number ?_ fun r mem _ => ?_
    · simp [modify_process_ne _ _ (Nat.ne_of_lt hb)]
    · rw [h]
      simp [pcs, modify_process_ne _ _ (Nat.ne_of_lt hb), Pc.linked]
    · unfold answered
      rw [h]
      simp [pcs, modify_process_ne _ _ (Nat.ne_of_lt hb), Pc.downs, Pc.reads]
  | loadUp aux success h =>
    have silent : (k.reports t).foldr (fun o s => Observation.update t tid s o) s = s := by
      cases success <;> simp [reports, h, Observation.update]
    rw [silent]
    refine hc.congr (by simp) number ?_ fun r mem _ => ?_
    · cases success <;> simp_all [pcs, Pc.linked]
    · cases success <;> simp_all [answered, pcs, Pc.downs, Pc.reads]
  | allocate h | notCreated _ h | free _ h | storeTid _ _ h | storeStatus _ h
  | waitUp _ h =>
    have silent : k.reports t = [] := by simp [reports, h]
    rw [silent]
    refine hc.congr (by simp) number (by rw [h]; simp [pcs, Pc.linked]) fun r mem _ => ?_
    unfold answered
    rw [hk (h ▸ rfl) r mem, h]
    simp [pcs, Pc.downs, Pc.reads]
  | notLoaded ci tid' h failure =>
    have silent : k.reports t = [] := by simp [reports, h, failure]
    rw [silent]
    refine hc.congr (by simp) number (by rw [h]; simp [pcs, Pc.linked]) fun r mem _ => ?_
    simp_all [answered, pcs, Pc.downs, Pc.reads]
  | _ h =>
    have silent : k.reports t = [] := by simp_all [reports]
    rw [silent]
    refine hc.congr (by simp) number (by simp_all [pcs, Pc.linked]) fun r mem _ => ?_
    simp_all [answered, pcs, Pc.downs, Pc.reads]

/-- The status of a process is the one it was seen to exit with, and -1 before that. -/
@[grind cases] structure Logged (k : System) (seen : List Observation) : Prop where
  before : ∀ c < k.created, (k.pcs c).exiting = false → (k.process c).exitStatus = -1
  after : ∀ c < k.created, (k.pcs c).exiting = true → .exited c (k.process c).exitStatus ∈ seen

theorem Steps.exiting (hst : Steps k t k') (hb : t < k.created) (busy : k.pcs t ≠ .running) :
    ((k'.pcs t).exiting = (k.pcs t).exiting ∧
      (k'.process t).exitStatus = (k.process t).exitStatus) ∨
    ∃ aux success, k.pcs t = .loadUp aux success ∧ (k'.pcs t).exiting = !success ∧
      (k'.process t).exitStatus = (k.process t).exitStatus := by
  cases hst with
  | execute h | wait _ h | exit _ h => exact absurd h busy
  | create ci h =>
    exact .inl (by rw [h]; simp [pcs, modify_process_ne _ _ (Nat.ne_of_lt hb), Pc.exiting])
  | loadUp aux success h =>
    refine .inr ⟨aux, success, h, ?_, by simp⟩
    cases success <;> simp [pcs, Pc.exiting]
  | _ => exact .inl (by simp_all [pcs, Pc.exiting])

theorem Logged.own_exec (logged : Logged k seen) (hb : t < k.created) (hst : Steps k t k')
    (busy : k.pcs t ≠ .running) :
    ((k'.pcs t).exiting = false → (k'.process t).exitStatus = -1) ∧
      ((k'.pcs t).exiting = true → .exited t (k'.process t).exitStatus ∈ k.reports t ++ seen) := by
  rcases hst.exiting hb busy with ⟨exiting, status⟩ | ⟨aux, success, h, exiting, status⟩
  · grind
  · have was := logged.before t hb (h ▸ rfl)
    rw [exiting, status, was]
    cases success with
    | true => simp
    | false => simp [reports, h]

theorem Logged.step {e : Event} (logged : Logged k seen) (h : k.step e = some k') :
    Logged k' (k.observe e ++ seen) := by
  obtain ⟨hb, hst⟩ := step_steps h
  have own : ((k'.pcs e.actor).exiting = false → (k'.process e.actor).exitStatus = -1) ∧
      ((k'.pcs e.actor).exiting = true →
        .exited e.actor (k'.process e.actor).exitStatus ∈ k.observe e ++ seen) := by
    cases e with
    | exec t ok =>
      refine logged.own_exec hb hst fun hi => ?_
      simp only [System.step, System.exec] at h
      split_ifs at h
      rw [show (k.process t).pc = .running from hi] at h
      cases h
    | request t r =>
      simp only [System.step] at h
      split_ifs at h with hi
      have was := logged.before t hi.1 (by rw [pcs, hi.2]; rfl)
      cases h
      cases r <;> simp [request, Event.actor, observe, pcs, Pc.exiting, was]
  have each : ∀ c < k'.created, ((k'.pcs c).exiting = false → (k'.process c).exitStatus = -1) ∧
      ((k'.pcs c).exiting = true →
        .exited c (k'.process c).exitStatus ∈ k.observe e ++ seen) := by
    refine hst.forall_born hb ?_ own ?_
    · intro c lt ne
      have pc : k'.pcs c = k.pcs c := hst.frame.pc c lt ne
      rw [pc, hst.frame.exitStatus c lt ne]
      exact ⟨logged.before c lt, fun h => mem_append_right _ (logged.after c lt h)⟩
    · intro _ _ hm _
      simp [pcs, hm, Pc.exiting]
  exact ⟨fun c lt => (each c lt).1, fun c lt => (each c lt).2⟩

end

/-! ### Agreement -/

def Orderly (k : System) (e : Event) : Prop := k.Prudent e ∧ k.LinkedFirst e.actor

instance (k : System) : DecidablePred k.Orderly := fun _ => inferInstanceAs (Decidable (_ ∧ _))

/-- The turns a process has left in `process_wait`, if it does not block. -/
def turnsLeft (k : System) (p : ThreadPtr) : Nat :=
  match k.pcs p with
  | .waitTest _ e => (rest (k.process p).children e).length + 4
  | .waitCheck _ _ => 3
  | .waitDown _ _ => 2
  | .waitRead _ _ => 1
  | _ => 0

/-- What a wait for a tid should return. -/
def Answer (k : System) (seen : List Observation) (p : ThreadPtr) (tid : Tid) (v : Int) :
    Standing → Prop
  | .due => ∃ c < k.created, (k.process c).tid = tid ∧
      (k.process c).parentTid = (k.process p).tid ∧ (k.pcs c).finished = true ∧ .exited c v ∈ seen
  | .stranger | .settled => v = -1

/-- What a parent can rely on when it waits. -/
structure Agreement (k : System) (seen : List Observation) : Prop where
  /-- A process blocks for a child of its own that has not finished, and for nothing else. -/
  blocked : ∀ p < k.created, ∀ tid r, k.pcs p = .waitDown tid r → (k.info r).waitSema = 0 →
    (∃ c < k.created, (k.process c).tid = tid) ∧ ∀ c < k.created, (k.process c).tid = tid →
      (k.process c).parentTid = (k.process p).tid ∧ (k.pcs c).finished = false
  /-- A process that waits for no such child can go on, and comes nearer to its return. -/
  returns : ∀ p < k.created, ∀ tid, (k.pcs p).waits = some tid →
    (∀ c < k.created, (k.process c).tid = tid → (k.process c).parentTid = (k.process p).tid →
      (k.pcs c).finished = true) →
    ∀ ok, ∃ k', k.step (.exec p ok) = some k' ∧
      (k'.pcs p = .running ∨ (k'.pcs p).waits = some tid ∧ k'.turnsLeft p < k.turnsLeft p)
  /-- Nobody else takes it further away. -/
  undisturbed : ∀ p < k.created, ∀ e k', k.step e = some k' → e.actor ≠ p →
    k'.pcs p = k.pcs p ∧ k'.turnsLeft p = k.turnsLeft p
  /-- The first wait for a child returns the status it exited with, and all others -1. -/
  values : ∀ e k', k.step e = some k' → ∀ p tid v, .returned p tid v ∈ k.observe e →
    Answer k seen p tid v (standing p tid seen)

/-- The invariant of orderly runs, with what has been seen in them. -/
structure Settled (seen : List Observation) (k : System) : Prop where
  sound : Sound k
  family : Family k
  agreeing : Agreeing k
  counted : ∀ p tid, Counted k p tid (standing p tid seen)
  logged : Logged k seen

section
variable {k k' : System} {t p c : ThreadPtr} {r : CiPtr} {tid : Tid} {seen : List Observation}

theorem Settled.step {e : Event} (settled : Settled seen k) (orderly : k.Orderly e)
    (h : k.step e = some k') : Settled (k.observe e ++ seen) k' := by
  obtain ⟨hs, family, agreeing, hc, logged⟩ := settled
  have sound' := hs.step orderly.1 h
  obtain ⟨hb, hst⟩ := step_steps h
  refine ⟨sound', family.step hs hb hst,
    agreeing.step hs sound' family orderly.2 hb hst, fun p tid => ?_, logged.step h⟩
  rw [standing_observe h]
  by_cases own : p = e.actor
  · subst own
    exact (hc e.actor tid).own agreeing hs family hb hst
  · rw [reports_others own]
    exact (hc p tid).others hs sound' hb hst own

theorem settled_boot : Settled [] boot := by
  refine ⟨sound_boot, family_boot, agreeing_boot, fun p tid r mem => ?_, ?_⟩
  · simp only [boot] at mem
    split at mem <;> cases mem
  · constructor <;> intro c hb <;> rw [Nat.lt_one_iff.mp hb]
    · exact fun _ => rfl
    · rintro ⟨⟩

/-- A child whose parent has come out of `process_execute` knows its parent. -/
theorem Kin.started (kin : Kin k p c tid) (hs : Sound k) (done : (k.pcs p).making = none) :
    (k.process c).parentTid = (k.process p).tid := by
  refine kin.parent fun q starts => ?_
  have hw := (hs.starting.waits c kin.born q (starts ▸ rfl)).2.2
  rw [kin.starts q starts, done] at hw
  cases hw

theorem Settled.blocked (settled : Settled seen k) (hb : p < k.created)
    (h : k.pcs p = .waitDown tid r) (down : (k.info r).waitSema = 0) :
    (∃ c < k.created, (k.process c).tid = tid) ∧ ∀ c < k.created, (k.process c).tid = tid →
      (k.process c).parentTid = (k.process p).tid ∧ (k.pcs c).finished = false := by
  obtain ⟨hs, family, agreeing, -, -⟩ := settled
  have mem : r ∈ (k.process p).children := hs.safe.awaits p r (h ▸ rfl)
  have number := (agreeing.waiting p hb).chose tid r (h ▸ rfl)
  obtain ⟨child, kin⟩ := family.child p hb r mem
  rw [number] at kin
  refine ⟨⟨child, kin.born, kin.tid⟩, fun c lt eq => ?_⟩
  obtain rfl := kin.unique hs lt eq
  refine ⟨kin.started hs (h ▸ rfl), ?_⟩
  have hl : p ∈ k.allList := hs.safe.present p hb (by simp [h])
  have count := (agreeing.posted p hl r mem c lt (eq.trans number.symm)).count
  have untaken : k.taken p r = false := by simp [taken, h, Pc.downs]
  rw [down, untaken] at count
  cases finished : (k.pcs c).finished with
  | false => rfl
  | true => simp [finished] at count

theorem Sound.step_exec (hs : Sound k) (hb : p < k.created) (ok : Bool) :
    k.step (.exec p ok) = k.execPc p ok (k.pcs p) := by
  have alive := uses_alive hs.safe hs.starting hb
  simp only [System.step, System.exec, if_pos hb, if_pos (all_eq_true.mpr alive), pcs]

theorem Settled.returns (settled : Settled seen k) (hb : p < k.created)
    (hw : (k.pcs p).waits = some tid)
    (ready : ∀ c < k.created, (k.process c).tid = tid →
      (k.process c).parentTid = (k.process p).tid → (k.pcs c).finished = true) (ok : Bool) :
    ∃ k', k.step (.exec p ok) = some k' ∧
      (k'.pcs p = .running ∨ (k'.pcs p).waits = some tid ∧ k'.turnsLeft p < k.turnsLeft p) := by
  rw [settled.sound.step_exec hb]
  cases h : k.pcs p with
  | waitTest tid' e =>
    obtain rfl : tid' = tid := by simpa [h, Pc.waits] using hw
    cases e with
    | none => exact ⟨_, rfl, .inl (by simp [pcs])⟩
    | some ci =>
      refine ⟨_, rfl, .inr ?_⟩
      have hi : ci ∈ (k.process p).children := settled.sound.safe.awaits p ci (h ▸ rfl)
      have nodup : (k.process p).children.Nodup := settled.sound.safe.nodup p
      split_ifs
      · simp [turnsLeft, pcs, Pc.waits, show (k.process p).pc = _ from h]
      · have shorter := congrArg length (Cursor.rest_eq_cons hi)
        simp only [turnsLeft, pcs, goto, modify_process_self, show (k.process p).pc = _ from h,
          rest_listNext nodup, Pc.waits, true_and]
        rw [length_cons] at shorter
        omega
  | waitCheck tid' ci =>
    obtain rfl : tid' = tid := by simpa [h, Pc.waits] using hw
    refine ⟨_, rfl, ?_⟩
    split_ifs
    · exact .inl (by simp [pcs])
    · exact .inr (by simp [turnsLeft, pcs, Pc.waits, show (k.process p).pc = _ from h])
  | waitDown tid' ci =>
    obtain rfl : tid' = tid := by simpa [h, Pc.waits] using hw
    have up : (k.info ci).waitSema ≠ 0 := by
      intro down
      obtain ⟨⟨c, lt, eq⟩, unfinished⟩ := settled.blocked hb h down
      obtain ⟨parent, running⟩ := unfinished c lt eq
      rw [ready c lt eq parent] at running
      cases running
    refine ⟨_, if_neg up, .inr ?_⟩
    simp [turnsLeft, pcs, Pc.waits, show (k.process p).pc = _ from h]
  | waitRead tid' ci => exact ⟨_, rfl, .inl (by simp [pcs])⟩
  | _ => simp [h, Pc.waits] at hw

theorem Posted.status_of_finished (posted : Posted k p c r) (finished : (k.pcs c).finished = true) :
    (k.info r).exitStatus = (k.process c).exitStatus ∧ (k.pcs c).exiting = true := by
  have place := posted.place
  cases pc : k.pcs c <;> simp_all [Pc.finished, Pc.exiting, Place]

/-- The status a `process_wait` reads is the one the child exited with. -/
theorem Settled.read (settled : Settled seen k) (hb : p < k.created)
    (h : k.pcs p = .waitRead tid r) :
    ∃ c < k.created, (k.process c).tid = tid ∧ (k.process c).parentTid = (k.process p).tid ∧
      (k.pcs c).finished = true ∧ .exited c (k.info r).exitStatus ∈ seen := by
  obtain ⟨hs, family, agreeing, -, logged⟩ := settled
  have mem : r ∈ (k.process p).children := hs.safe.awaits p r (h ▸ rfl)
  have number := (agreeing.waiting p hb).chose tid r (h ▸ rfl)
  have waited := (agreeing.waiting p hb).waited r (.inr (h ▸ rfl))
  obtain ⟨c, kin⟩ := family.child p hb r mem
  have hl : p ∈ k.allList := hs.safe.present p hb (by simp [h])
  have posted := agreeing.posted p hl r mem c kin.born kin.tid
  have finished : (k.pcs c).finished = true := by
    have count := posted.count
    have taken : k.taken p r = true := by simp [taken, waited, h, Pc.downs]
    rw [taken] at count
    cases finished : (k.pcs c).finished with
    | true => rfl
    | false => simp [finished] at count
  obtain ⟨status, exiting⟩ := posted.status_of_finished finished
  refine ⟨c, kin.born, kin.tid.trans number, kin.started hs (h ▸ rfl), finished, ?_⟩
  rw [status]
  exact logged.after c kin.born exiting

theorem answer_minus_one {s : Standing} (notDue : s ≠ .due) : Answer k seen p tid (-1) s := by
  cases s with
  | due => exact absurd rfl notDue
  | stranger | settled => rfl

theorem Settled.values {e : Event} (settled : Settled seen k) (h : k.step e = some k') {v : Int}
    (returned : .returned p tid v ∈ k.observe e) : Answer k seen p tid v (standing p tid seen) := by
  cases e with
  | request t r => cases r <;> simp [observe] at returned
  | exec t ok =>
    obtain ⟨hb, -⟩ := step_steps h
    have waiting := settled.agreeing.waiting t hb
    simp only [observe, reports] at returned
    split at returned
    · split_ifs at returned <;> simp at returned
    · simp at returned
    · rename_i tid' hp
      obtain ⟨rfl, rfl, rfl⟩ : p = t ∧ tid = tid' ∧ v = -1 := by simpa using returned
      exact answer_minus_one (not_due_at_end (settled.counted p tid) waiting hp)
    · rename_i tid' ci hp
      split_ifs at returned with waited
      · obtain ⟨rfl, rfl, rfl⟩ : p = t ∧ tid = tid' ∧ v = -1 := by simpa using returned
        exact answer_minus_one (not_due_again (settled.counted p tid) waiting settled.sound
          settled.family hb hp waited)
      · simp at returned
    · rename_i tid' ci hp
      obtain ⟨rfl, rfl, rfl⟩ : p = t ∧ tid = tid' ∧ v = (k.info ci).exitStatus := by
        simpa using returned
      rw [due_at_read (settled.counted p tid) waiting settled.sound settled.family hb hp]
      exact settled.read hb hp
    · simp at returned

/-- In every orderly run, whatever the interleaving, a parent that waits for a child that has
finished does not block and gets its status, once, and -1 for everything else. -/
theorem wait_agreement {history : List Event} (run : Machine.Run step Orderly boot history k) :
    Agreement k (Machine.log step observe boot history) := by
  have settled : Settled (Machine.log step observe boot history) k :=
    run.log_invariant settled_boot fun _ _ _ _ settled orderly h => settled.step orderly h
  refine ⟨?_, ?_, ?_, ?_⟩
  · exact fun p hb tid r hp down => settled.blocked hb hp down
  · exact fun p hb tid hw ready ok => settled.returns hb hw ready ok
  · intro p hb e k' h ne
    have frame := (step_steps h).2.frame
    have pc : k'.pcs p = k.pcs p := frame.pc p hb (Ne.symm ne)
    refine ⟨pc, ?_⟩
    unfold turnsLeft
    rw [pc, frame.children p hb (Ne.symm ne)]
  · exact fun e k' h p tid v returned => settled.values h returned

/-- The initial thread starts a program, which exits with 7, and waits for it. -/
def waitAfterExit : List Event :=
  executes 0 ++ loads 1 true ++ [.exec 0 true, .exec 0 true, .request 1 (.exit (some 7))] ++
  replicate 5 (.exec 1 true) ++ .request 0 (.wait 3) :: replicate 3 (.exec 0 true)

theorem wait_agreement_waitAfterExit :
    ∃ k, Machine.runs step Orderly boot waitAfterExit = some k ∧
      k.observe (.exec 0 true) = [.returned 0 3 7] ∧
      Agreement k (Machine.log step observe boot waitAfterExit.reverse) := by
  have state : (Machine.runs step Orderly boot waitAfterExit).map
      (fun k => k.observe (.exec 0 true)) = some [.returned 0 3 7] := by decide +kernel
  obtain ⟨k, hr, seen⟩ := Option.map_eq_some_iff.mp state
  exact ⟨k, hr, seen, wait_agreement (Machine.runs_run hr)⟩

/-- The child loads, runs and exits with 7 before the initial thread, back from
`thread_create`, has put the record into its list. Then the initial thread waits for it. -/
def exitBeforeLink : List Event :=
  .request 0 .execute :: replicate 2 (.exec 0 true) ++ loads 1 true ++
  .request 1 (.exit (some 7)) :: replicate 4 (.exec 1 true) ++
  replicate 4 (.exec 0 true) ++ .request 0 (.wait 3) :: replicate 2 (.exec 0 true)

theorem blocked_for_finished :
    ∃ k, Machine.runs step Machine.Free boot exitBeforeLink = some k ∧
      k.pcs 0 = .waitDown 3 0 ∧ (k.info 0).waitSema = 0 ∧ (k.process 1).tid = 3 ∧
      (k.pcs 1).finished = true ∧ k.step (.exec 0 true) = none ∧
      standing 0 3 (Machine.log step observe boot exitBeforeLink.reverse) = .due := by
  have state : (Machine.runs step Machine.Free boot exitBeforeLink).map
      (fun k => (k.pcs 0, (k.info 0).waitSema, (k.process 1).tid, (k.pcs 1).finished,
        (k.step (.exec 0 true)).isNone)) = some (.waitDown 3 0, 0, 3, true, true) := by
    decide +kernel
  obtain ⟨k, hr, seen⟩ := Option.map_eq_some_iff.mp state
  simp only [Prod.mk.injEq, Option.isNone_iff_eq_none] at seen
  obtain ⟨parent, down, tid, finished, stuck⟩ := seen
  exact ⟨k, hr, parent, down, tid, finished, stuck, by decide +kernel⟩

end

end System

end Pintos.Userprog
