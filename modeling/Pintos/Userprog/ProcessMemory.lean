import Pintos.Userprog.ProcessFrame

/-!
# Memory of processes

Who may hold a pointer to what: a record is reached from the `process_execute`
that makes it, from the list of one process, and from the `process_exit` of a
child that walks that list.
-/

namespace Pintos.Userprog

open Function List Option

open Threads (ThreadPtr listNext)

variable {e : Option CiPtr}

theorem awaits_waitTest {tid : Tid} : (Pc.waitTest tid e).awaits = e := by
  cases e <;> rfl

theorem walks_searchTest {found : ThreadPtr} : (Pc.searchTest found e).walks = e := by
  cases e <;> rfl

/-- What there is in memory, and the lists. -/
@[ext] structure Shape where
  created : Nat
  allocated : Nat
  live : ThreadPtr → Bool
  infoLive : CiPtr → Bool
  children : ThreadPtr → List CiPtr
  allList : List ThreadPtr

@[grind cases] structure Sane (s : Shape) (pc : ThreadPtr → Pc) : Prop where
  unborn : ∀ t, s.created ≤ t → s.children t = [] ∧ pc t = .running
  listed : ∀ t ∈ s.allList, t < s.created ∧ s.live t
  listOnce : s.allList.Nodup
  present : ∀ t, t < s.created → pc t ≠ .gone → t ∈ s.allList
  owned : ∀ t, ∀ ci ∈ s.children t, ci < s.allocated ∧ s.infoLive ci
  owner : ∀ t u, ∀ ci ∈ s.children t, ci ∈ s.children u → t = u
  nodup : ∀ t, (s.children t).Nodup
  loose : ∀ t ci, (pc t).loose = some ci →
    ci < s.allocated ∧ s.infoLive ci ∧ ∀ u, ci ∉ s.children u
  looseOnce : ∀ t u ci, (pc t).loose = some ci → (pc u).loose = some ci → t = u
  unseen : ∀ t u ci, (pc t).unlinked = some ci → (pc u).walks ≠ some ci
  last : ∀ t ci, (pc t).linked = some ci → ∃ before, s.children t = before ++ [ci]
  awaits : ∀ t ci, (pc t).awaits = some ci → ci ∈ s.children t
  walks : ∀ t ci, (pc t).walks = some ci → ci < s.allocated ∧ s.infoLive ci
  finds : ∀ t p, (pc t).finds = some p → s.live p

theorem Sane.working {s : Shape} {pc : ThreadPtr → Pc} (sane : Sane s pc) (t : ThreadPtr)
    (hb : t < s.created) (busy : pc t ≠ .gone) : s.live t :=
  (sane.listed t (sane.present t hb busy)).2

/-- The new program counter of a step that leaves memory and lists alone. -/
@[grind cases] structure Sane.Goes (s : Shape) (pc : ThreadPtr → Pc) (t : ThreadPtr) (new : Pc) :
    Prop where
  born : t < s.created
  present : t ∈ s.allList
  loose : ∀ ci, new.loose = some ci → (pc t).loose = some ci
  unlinked : ∀ ci, new.unlinked = some ci → (pc t).unlinked = some ci
  linked : ∀ ci, new.linked = some ci → (pc t).linked = some ci
  awaits : ∀ ci, new.awaits = some ci → ci ∈ s.children t
  walks : ∀ ci, new.walks = some ci → (pc t).walks = some ci ∨ ∃ p, ci ∈ s.children p
  finds : ∀ p, new.finds = some p → s.live p

theorem Pc.loose_of_unlinked {pc : Pc} {ci : CiPtr} (h : pc.unlinked = some ci) :
    pc.loose = some ci := by
  cases pc <;> simp_all [Pc.unlinked, Pc.loose]

/-- From when the parent is found in `process_exit` to the last use of its list. -/
def Pc.searching : Pc → Bool
  | .searchBegin _ | .searchTest _ _ | .searchNext _ _ | .storeStatus _ | .waitUp _ => true
  | _ => false

def Pc.found : Pc → Option ThreadPtr
  | .searchBegin found | .searchTest found _ | .searchNext found _ => some found
  | _ => none

section
variable {pc : Pc} {ci : CiPtr} {p : ThreadPtr}

theorem Pc.walks_searchTest (e : Option CiPtr) : (Pc.searchTest p e).walks = e := by
  cases e <;> rfl

theorem Pc.searching_of_walks (h : pc.walks = some ci) : pc.searching = true := by
  cases pc <;> simp_all [Pc.walks, Pc.searching]

theorem Pc.searching_of_finds (h : pc.finds = some p) : pc.searching = true := by
  cases pc <;> simp_all [Pc.finds, Pc.searching]

theorem Pc.found_of_finds (h : pc.finds = some p) : pc.found = some p := by
  cases pc <;> simp_all [Pc.finds, Pc.found]

end

/-- Nothing points to a record, so that it may be freed or given out. -/
@[grind cases] structure Stray (s : Shape) (pc : ThreadPtr → Pc) (ci : CiPtr) : Prop where
  unlisted : ∀ u, ci ∉ s.children u
  released : ∀ u, (pc u).loose ≠ some ci
  passed : ∀ u, (pc u).walks ≠ some ci

section
attribute [local grind] Pc.loose Pc.unlinked Pc.linked Pc.awaits Pc.walks Pc.finds
attribute [local grind →] Pc.loose_of_unlinked

variable {s : Shape} {pc : ThreadPtr → Pc} {t : ThreadPtr} {ci : CiPtr} {tid : Tid}

section
variable (sane : Sane s pc)
include sane

theorem Sane.goto {new : Pc} (goes : Sane.Goes s pc t new) : Sane s (update pc t new) := by
  cases sane
  constructor <;> first | assumption | grind [update_apply]

theorem Sane.grow : Sane { s with
    allocated := s.allocated + 1
    infoLive := update s.infoLive s.allocated true } pc := by
  cases sane
  constructor <;> first | assumption | grind [update_apply]

theorem Sane.adopt (hb : t < s.created) (present : t ∈ s.allList)
    (lt : ci < s.allocated) (infoLive : s.infoLive ci) (stray : Stray s pc ci) :
    Sane s (update pc t (.threadCreate ci)) := by
  cases sane
  constructor <;> first | assumption | grind [update_apply]

theorem Sane.free (stray : Stray s pc ci) :
    Sane { s with infoLive := update s.infoLive ci false } pc := by
  cases sane
  constructor <;> first | assumption | grind [update_apply]

theorem Sane.birth : Sane { s with
    created := s.created + 1
    live := update s.live s.created true
    children := update s.children s.created []
    allList := s.allList ++ [s.created] } (update pc s.created (.start t)) := by
  cases sane
  constructor <;> first | assumption | grind [update_apply]

/-- `list_push_back` of the record the process has just made. -/
theorem Sane.pushBack (at_ : pc t = .pushBack ci tid) :
    Sane { s with children := update s.children t (s.children t ++ [ci]) }
      (update pc t (.loadDown ci tid)) := by
  cases sane
  constructor
  case last =>
    intro u ci' h
    by_cases own : u = t
    · exact ⟨s.children u, by grind [update_apply]⟩
    · grind [update_apply]
  all_goals first | assumption | grind [update_apply]

/-- `list_remove` of the record put in last. -/
theorem Sane.remove (at_ : pc t = .remove ci) :
    Sane { s with children := update s.children t ((s.children t).erase ci) }
      (update pc t (.free ci)) := by
  cases sane
  constructor <;> first | assumption | grind [update_apply]

/-- A thread leaves `all_list`, and `stays` says whether its page stays. -/
theorem Sane.leave (hb : t < s.created) {stays : Bool}
    (unfound : stays = false → ∀ u, (pc u).finds ≠ some t) :
    Sane { s with live := update s.live t stays, allList := s.allList.erase t }
      (update pc t .gone) := by
  cases sane
  constructor <;> first | assumption | grind [update_apply]

end

end

namespace System

def shape (k : System) : Shape where
  created := k.created
  allocated := k.allocated
  live t := (k.process t).live
  infoLive ci := (k.info ci).live
  children t := (k.process t).children
  allList := k.allList

section
variable (k : System) (t : ThreadPtr) (ci : CiPtr) {f : Process → Process}

theorem pcs_update {k k' : System} {t : ThreadPtr} {new : Pc} (h : (k'.process t).pc = new)
    (others : ∀ u, u ≠ t → (k'.process u).pc = (k.process u).pc) : k'.pcs = update k.pcs t new := by
  funext u
  by_cases eq : u = t
  · subst eq
    simpa [pcs] using h
  · simpa [pcs, eq] using others u eq

theorem pcs_modify (f : Process → Process) :
    (k.modify t f).pcs = update k.pcs t (f (k.process t)).pc :=
  pcs_update (by simp [modify]) fun u ne => by simp [modify, ne]

theorem pcs_modify_keep (eq : ∀ p, (f p).pc = p.pc) : (k.modify t f).pcs = k.pcs := by
  rw [pcs_modify, eq]
  exact update_eq_self t k.pcs

theorem live_modify (f : Process → Process) : (k.modify t f).shape.live =
    update k.shape.live t (f (k.process t)).live :=
  comp_update Process.live k.process t _

theorem children_modify (f : Process → Process) : (k.modify t f).shape.children =
    update k.shape.children t (f (k.process t)).children :=
  comp_update Process.children k.process t _

theorem live_modify_keep (eq : ∀ p, (f p).live = p.live) :
    (k.modify t f).shape.live = k.shape.live := by
  rw [live_modify, eq]
  exact update_eq_self t k.shape.live

theorem children_modify_keep (eq : ∀ p, (f p).children = p.children) :
    (k.modify t f).shape.children = k.shape.children := by
  rw [children_modify, eq]
  exact update_eq_self t k.shape.children

theorem shape_modify (live : ∀ p, (f p).live = p.live)
    (children : ∀ p, (f p).children = p.children) : (k.modify t f).shape = k.shape :=
  Shape.ext rfl rfl (live_modify_keep k t live) rfl (children_modify_keep k t children) rfl

theorem infoLive_modifyInfo (f : ChildInfo → ChildInfo) : (k.modifyInfo ci f).shape.infoLive =
    update k.shape.infoLive ci (f (k.info ci)).live :=
  comp_update ChildInfo.live k.info ci _

theorem shape_modifyInfo {f : ChildInfo → ChildInfo} (live : ∀ r, (f r).live = r.live) :
    (k.modifyInfo ci f).shape = k.shape := by
  refine Shape.ext rfl rfl rfl ?_ rfl rfl
  rw [infoLive_modifyInfo, live]
  exact update_eq_self ci k.shape.infoLive

theorem shape_goto (pc : Pc) : (k.goto t pc).shape = k.shape :=
  shape_modify k t (fun _ => rfl) fun _ => rfl

theorem pcs_goto (pc : Pc) : (k.goto t pc).pcs = update k.pcs t pc := pcs_modify k t _

end

/-- When a record is freed after a failed load no `process_exit` is at it, and
when a thread is destroyed nobody has just found it and is about to read its list. -/
def Prudent (k : System) (e : Event) : Prop :=
  match k.pcs e.actor with
  | .free ci => ∀ u < k.created, (k.pcs u).walks ≠ some ci
  | .exitDone => e.actor ≠ initialThread → ∀ u < k.created, (k.pcs u).finds ≠ some e.actor
  | _ => True

instance (k : System) : DecidablePred k.Prudent := by
  intro e
  unfold Prudent
  split <;> infer_instance

abbrev Safe (k : System) : Prop := Sane k.shape k.pcs

section
variable {k k' : System} {t : ThreadPtr}

theorem mem_of_listNext {l : List CiPtr} {e e' : CiPtr} (h : listNext l e = some e') : e' ∈ l := by
  unfold listNext at h
  have inTail := mem_of_mem_head? (mem_def.mpr h)
  exact (dropWhile_sublist _).subset (mem_of_mem_tail inTail)

theorem mem_of_findThreadByTid {k : System} {tid : Tid} {p : ThreadPtr}
    (h : k.findThreadByTid tid = some p) : p ∈ k.allList ∧ (k.process p).tid = tid := by
  have general : ∀ (l : List ThreadPtr) (found : Option ThreadPtr),
      (∀ q, found = some q → q ∈ k.allList ∧ (k.process q).tid = tid) → (∀ q ∈ l, q ∈ k.allList) →
      ∀ q, l.foldl (fun found t => if (k.process t).tid = tid then some t else found) found =
        some q →
        q ∈ k.allList ∧ (k.process q).tid = tid := by
    intro l
    induction l with
    | nil => exact fun found ok _ => ok
    | cons a l ih =>
      intro found ok sub
      refine ih _ ?_ fun q mem => sub q (mem_cons_of_mem a mem)
      intro q
      dsimp only
      split_ifs with same
      · intro eq
        cases eq
        exact ⟨sub a (.head _), same⟩
      · exact ok q
  exact general k.allList none nofun (fun _ mem => mem) p h

theorem Safe.of_sane {s : Shape} {pc : ThreadPtr → Pc} (sane : Sane s pc) (shape : k.shape = s)
    (pcs : k.pcs = pc) : Safe k := by
  unfold Safe
  rw [shape, pcs]
  exact sane

/-- Steps that only move the program counter, or write data that is not memory. -/
theorem Safe.goes (safe : Safe k) (new : Pc) (goes : Sane.Goes k.shape k.pcs t new)
    (shape : k'.shape = k.shape) (pcs : k'.pcs = update k.pcs t new) : Safe k' :=
  .of_sane (Sane.goto safe goes) shape pcs

theorem Safe.moved (safe : Safe k) {new : Pc} (goes : Sane.Goes k.shape k.pcs t new) :
    Safe (k.goto t new) :=
  safe.goes new goes (shape_goto k t new) (pcs_goto k t new)

/-- The pointers of a program counter that holds only what the old one held, or
what is in a list. -/
theorem Safe.leaves (safe : Safe k) (hb : t < k.created) (busy : k.pcs t ≠ .gone) {new : Pc}
    (loose : ∀ ci, new.loose = some ci → (k.pcs t).loose = some ci)
    (unlinked : ∀ ci, new.unlinked = some ci → (k.pcs t).unlinked = some ci)
    (hl : ∀ ci, new.linked = some ci → (k.pcs t).linked = some ci)
    (awaits : ∀ ci, new.awaits = some ci → ci ∈ k.shape.children t)
    (walks : ∀ ci, new.walks = some ci → (k.pcs t).walks = some ci ∨ ∃ p, ci ∈ k.shape.children p)
    (finds : ∀ p, new.finds = some p → k.shape.live p) : Sane.Goes k.shape k.pcs t new :=
  ⟨hb, safe.present t hb busy, loose, unlinked, hl, awaits, walks, finds⟩

/-- A program counter that holds no pointer. -/
structure Plain (pc : Pc) : Prop where
  loose : pc.loose = none
  unlinked : pc.unlinked = none
  linked : pc.linked = none
  awaits : pc.awaits = none
  walks : pc.walks = none
  finds : pc.finds = none

section
variable (safe : Safe k)
include safe

theorem Safe.plain (hb : t < k.created) (busy : k.pcs t ≠ .gone) {new : Pc}
    (hp : Plain new) : Sane.Goes k.shape k.pcs t new := by
  have nothing : ∀ {α : Type} {o : Option α} {x : α}, o = none → o ≠ some x :=
    fun none some => by cases none.symm.trans some
  exact ⟨hb, safe.present t hb busy, fun _ h => absurd h (nothing hp.loose),
    fun _ h => absurd h (nothing hp.unlinked), fun _ h => absurd h (nothing hp.linked),
    fun _ h => absurd h (nothing hp.awaits), fun _ h => absurd h (nothing hp.walks),
    fun _ h => absurd h (nothing hp.finds)⟩

theorem Safe.allocate (hb : t < k.created) (busy : k.pcs t ≠ .gone) :
    Safe { k.modify t (fun p => { p with
        aux := { parentTid := p.tid }, pc := .threadCreate k.allocated }) with
      info := update k.info k.allocated { live := true }
      allocated := k.allocated + 1 } := by
  have grown := Sane.grow safe
  have stray : Stray k.shape k.pcs k.allocated := by
    refine ⟨fun u child => ?_, fun u loose => ?_, fun u walks => ?_⟩
    · exact Nat.lt_irrefl _ (safe.owned u _ child).1
    · exact Nat.lt_irrefl _ (safe.loose u _ loose).1
    · exact Nat.lt_irrefl _ (safe.walks u _ walks).1
  have adopted := grown.adopt (t := t) hb (safe.present t hb busy)
    (Nat.lt_succ_self k.allocated) (by simp [shape]) ⟨stray.unlisted, stray.released, stray.passed⟩
  refine .of_sane adopted (Shape.ext rfl rfl ?_ ?_ ?_ rfl)
    (pcs_update (by simp [modify]) fun u ne => by simp [modify, ne])
  · exact live_modify_keep k t (f := fun p => { p with
      aux := { parentTid := p.tid }, pc := .threadCreate k.allocated }) fun _ => rfl
  · exact comp_update ChildInfo.live k.info k.allocated _
  · exact children_modify_keep k t (f := fun p => { p with
      aux := { parentTid := p.tid }, pc := .threadCreate k.allocated }) fun _ => rfl

theorem Safe.freed (hb : t < k.created) {ci : CiPtr} (loose : (k.pcs t).loose = some ci)
    (passed : ∀ u, (k.pcs u).walks ≠ some ci) :
    Safe ((k.modifyInfo ci fun r => { r with live := false }).goto t .running) := by
  have busy : k.pcs t ≠ .gone := by
    intro gone
    rw [gone] at loose
    cases loose
  have hm : Safe (k.goto t .running) :=
    safe.moved (safe.plain hb busy ⟨rfl, rfl, rfl, rfl, rfl, rfl⟩)
  have stray : Stray (k.goto t .running).shape (k.goto t .running).pcs ci := by
    rw [shape_goto, pcs_goto]
    constructor <;> grind [update_apply, Pc.loose, Pc.walks]
  have freed := Sane.free hm stray
  refine .of_sane freed (Shape.ext rfl rfl rfl ?_ rfl rfl) rfl
  exact infoLive_modifyInfo k ci fun r => { r with live := false }

theorem Safe.threadCreate (hb : t < k.created) {ci : CiPtr} {tid nextTid : Tid}
    (h : k.pcs t = .threadCreate ci) :
    Safe { (k.goto t (.storeTid ci tid)).modify k.created
        (fun _ => { tid, live := true, pc := .start t }) with
      created := k.created + 1, allList := k.allList ++ [k.created], nextTid } := by
  have busy : k.pcs t ≠ .gone := by simp [h]
  have hm : Safe (k.goto t (.storeTid ci tid)) := by
    refine safe.moved (safe.leaves hb busy ?_ ?_ nofun nofun nofun nofun) <;>
    · intro ci' own
      rw [h]
      exact own
  have bred := Sane.birth (t := t) hm
  let made : Process → Process := fun _ => { tid, live := true, pc := .start t }
  exact .of_sane bred
    (Shape.ext rfl rfl (live_modify (k.goto t (.storeTid ci tid)) k.created made) rfl
      (children_modify (k.goto t (.storeTid ci tid)) k.created made) rfl)
    (pcs_modify (k.goto t (.storeTid ci tid)) k.created made)

theorem Safe.pushBack {ci : CiPtr} {tid : Tid} (h : k.pcs t = .pushBack ci tid) :
    Safe (k.modify t fun p =>
      { p with children := p.children ++ [ci], pc := .loadDown ci tid }) := by
  exact .of_sane (Sane.pushBack safe h) (Shape.ext rfl rfl (live_modify_keep k t fun _ => rfl) rfl
    (children_modify k t _) rfl) (pcs_modify k t _)

theorem Safe.remove {ci : CiPtr} (h : k.pcs t = .remove ci) :
    Safe (k.modify t fun p => { p with children := p.children.erase ci, pc := .free ci }) := by
  exact .of_sane (Sane.remove safe h) (Shape.ext rfl rfl (live_modify_keep k t fun _ => rfl) rfl
    (children_modify k t _) rfl) (pcs_modify k t _)

theorem Safe.exitDone (hb : t < k.created)
    (unfound : t ≠ initialThread → ∀ u < k.created, (k.process u).pc.finds ≠ some t) :
    Safe { k.modify t (fun p => { p with live := decide (t = initialThread), pc := .gone }) with
      allList := k.allList.erase t } := by
  have unfound' : decide (t = initialThread) = false → ∀ u, (k.pcs u).finds ≠ some t := by
    intro ne u finds
    by_cases far : k.created ≤ u
    · rw [(safe.unborn u far).2] at finds
      cases finds
    · exact unfound (of_decide_eq_false ne) u (Nat.lt_of_not_le far) finds
  refine .of_sane (Sane.leave safe hb unfound') (Shape.ext rfl rfl ?_ rfl ?_ rfl)
    (pcs_update (by simp [modify]) fun u ne => by simp [modify, ne])
  · exact live_modify k t fun p => { p with live := decide (t = initialThread), pc := .gone }
  · exact children_modify_keep k t
      (f := fun p => { p with live := decide (t = initialThread), pc := .gone }) fun _ => rfl

theorem Safe.step {e : Event} (prudent : k.Prudent e) (h : k.step e = some k') : Safe k' := by
  obtain ⟨hb, hst⟩ := step_steps h
  unfold Prudent at prudent
  generalize e.actor = t at hb hst prudent
  have busy : k.pcs t ≠ .gone := by cases hst <;> simp_all
  cases hst with
  | execute | outOfMemory | loaded | waitEnd | waitAgain | waitRead =>
    exact safe.moved (safe.plain hb busy ⟨rfl, rfl, rfl, rfl, rfl, rfl⟩)
  | load | orphan | searchEnd =>
    exact safe.moved (safe.plain hb busy ⟨rfl, rfl, rfl, rfl, rfl, rfl⟩)
  | wait tid =>
    refine safe.moved (safe.leaves hb busy nofun nofun nofun ?_ nofun nofun)
    exact fun ci own => mem_of_mem_head? (awaits_waitTest.symm.trans own)
  | exit =>
    exact safe.goes .lookup (safe.plain hb busy ⟨rfl, rfl, rfl, rfl, rfl, rfl⟩)
      (shape_modify k t (fun _ => rfl) fun _ => rfl) (pcs_modify k t _)
  | allocate => exact safe.allocate hb busy
  | notCreated ci hp =>
    refine safe.freed hb (hp ▸ rfl) fun u => ?_
    exact safe.unseen t u ci (hp ▸ rfl)
  | create ci hp => exact safe.threadCreate hb hp
  | storeTid ci tid hp =>
    refine safe.goes (.pushBack ci tid) (safe.leaves hb busy ?_ ?_ nofun nofun nofun nofun)
      ((shape_goto _ t _).trans (shape_modifyInfo k ci fun _ => rfl)) (pcs_goto _ t _) <;>
    · intro ci' own
      rw [hp]
      exact own
  | pushBack ci tid hp => exact safe.pushBack hp
  | loadDown ci tid hp =>
    refine safe.goes (.loadCheck ci tid) (safe.leaves hb busy nofun nofun ?_ nofun nofun nofun)
      (shape_modify k t (fun _ => rfl) fun _ => rfl) (pcs_modify k t _)
    intro ci' own
    rw [hp]
    exact own
  | notLoaded ci tid hp =>
    refine safe.moved (safe.leaves hb busy nofun nofun ?_ nofun nofun nofun)
    intro ci' own
    rw [hp]
    exact own
  | remove ci hp => exact safe.remove hp
  | free ci hp =>
    rw [hp] at prudent
    refine safe.freed hb (hp ▸ rfl) fun u walks => ?_
    by_cases far : k.created ≤ u
    · rw [(safe.unborn u far).2] at walks
      cases walks
    · exact prudent u (Nat.lt_of_not_le far) walks
  | start aux =>
    exact safe.goes (.load aux) (safe.plain hb busy ⟨rfl, rfl, rfl, rfl, rfl, rfl⟩)
      (shape_modify k t (fun _ => rfl) fun _ => rfl) (pcs_modify k t _)
  | storeSuccess aux success =>
    refine safe.goes (.loadUp aux success) (safe.plain hb busy ⟨rfl, rfl, rfl, rfl, rfl, rfl⟩) ?_ ?_
    · rw [shape_goto, shape_modify]
      · exact fun _ => rfl
      · exact fun _ => rfl
    · rw [pcs_goto, pcs_modify_keep]
      exact fun _ => rfl
  | loadUp aux success =>
    refine safe.goes (t := t) (if success then .running else .lookup) ?_ ?_ ?_
    · split <;> exact safe.plain hb busy ⟨rfl, rfl, rfl, rfl, rfl, rfl⟩
    · rw [shape_goto, shape_modify]
      · exact fun _ => rfl
      · exact fun _ => rfl
    · rw [pcs_goto, pcs_modify_keep]
      exact fun _ => rfl
  | waitHere tid ci hp =>
    refine safe.moved (safe.leaves hb busy nofun nofun nofun ?_ nofun nofun)
    intro ci' own
    cases own
    exact safe.awaits t ci (hp ▸ rfl)
  | waitNext tid ci hp =>
    refine safe.moved (safe.leaves hb busy nofun nofun nofun ?_ nofun nofun)
    intro ci' own
    exact mem_of_listNext (awaits_waitTest.symm.trans own)
  | waitFirst tid ci hp =>
    refine safe.goes (.waitDown tid ci) (safe.leaves hb busy nofun nofun nofun ?_ nofun nofun)
      ((shape_goto _ t _).trans (shape_modifyInfo k ci fun _ => rfl)) (pcs_goto _ t _)
    intro ci' own
    cases own
    exact safe.awaits t ci (hp ▸ rfl)
  | waitDown tid ci hp =>
    refine safe.goes (.waitRead tid ci) (safe.leaves hb busy nofun nofun nofun ?_ nofun nofun)
      ((shape_goto _ t _).trans (shape_modifyInfo k ci fun _ => rfl)) (pcs_goto _ t _)
    intro ci' own
    cases own
    exact safe.awaits t ci (hp ▸ rfl)
  | lookup found hp eq =>
    refine safe.moved (safe.leaves hb busy nofun nofun nofun nofun nofun ?_)
    intro p own
    cases own
    exact (safe.listed found (mem_of_findThreadByTid eq).1).2
  | searchBegin found =>
    refine safe.moved (safe.leaves hb busy nofun nofun nofun nofun ?_ nofun)
    intro ci own
    exact .inr ⟨found, mem_of_mem_head? (walks_searchTest.symm.trans own)⟩
  | searchHere found ci hp | searchPast found ci hp =>
    refine safe.moved (safe.leaves hb busy nofun nofun nofun nofun ?_ nofun)
    intro ci' own
    cases own
    exact .inl (hp ▸ rfl)
  | searchNext found ci =>
    refine safe.moved (safe.leaves hb busy nofun nofun nofun nofun ?_ nofun)
    intro ci' own
    exact .inr ⟨found, mem_of_listNext (walks_searchTest.symm.trans own)⟩
  | storeStatus ci hp =>
    refine safe.goes (.waitUp ci) (safe.leaves hb busy nofun nofun nofun nofun ?_ nofun)
      ((shape_goto _ t _).trans (shape_modifyInfo k ci fun _ => rfl)) (pcs_goto _ t _)
    intro ci' own
    rw [hp]
    exact .inl own
  | waitUp ci =>
    exact safe.goes .exitDone (safe.plain hb busy ⟨rfl, rfl, rfl, rfl, rfl, rfl⟩)
      ((shape_goto _ t _).trans (shape_modifyInfo k ci fun _ => rfl)) (pcs_goto _ t _)
  | exitDone hp =>
    rw [hp] at prudent
    exact safe.exitDone hb prudent

end

theorem safe_boot : Safe boot := by
  have hi : ∀ t, boot.pcs t = .running := by
    intro t
    simp only [pcs, boot]
    split <;> rfl
  have childless : ∀ t, boot.shape.children t = [] := by
    intro t
    simp only [shape, boot]
    split <;> rfl
  constructor
  case unborn => exact fun t _ => ⟨childless t, hi t⟩
  case listed =>
    intro t mem
    rw [mem_singleton.mp mem]
    exact ⟨Nat.zero_lt_one, rfl⟩
  case listOnce => exact nodup_singleton _
  case present =>
    intro t hb _
    rw [Nat.lt_one_iff.mp hb]
    exact mem_singleton.mpr rfl
  case owned => simp [childless]
  case owner => simp [childless]
  case nodup => simp [childless]
  all_goals simp [hi, Pc.loose, Pc.unlinked, Pc.linked, Pc.awaits, Pc.walks, Pc.finds]

end

/-! ### The frame of `process_execute` -/

/-- The argument as `process_execute` fills it, not answered yet. -/
def ExecAux.Open (a : ExecAux) (tid : Tid) : Prop := a.loadSema = 0 ∧ a.parentTid = tid

/-- While a child has the argument of `start_process`, its parent stays in the
`process_execute` that holds it. -/
@[grind cases] structure Starting (k : System) : Prop where
  waits : ∀ c < k.created, ∀ p, (k.pcs c).aux = some p → p < k.created ∧
    ExecAux.Open (k.process p).aux (k.process p).tid ∧ (k.pcs p).making = some (k.process c).tid
  fresh : ∀ t < k.created, ∀ ci, k.pcs t = .threadCreate ci →
    ExecAux.Open (k.process t).aux (k.process t).tid

section
variable {k k' : System} {t : ThreadPtr}

/-- The one step that ends the waiting needs the semaphore up. -/
theorem Steps.making {tid : Tid} (hst : Steps k t k')
    (making : (k.pcs t).making = some tid) (down : (k.process t).aux.loadSema = 0) :
    (k'.pcs t).making = some tid ∧ (k'.process t).aux = (k.process t).aux := by
  cases hst with
  | storeTid ci tid' h | pushBack ci tid' h =>
    rw [h] at making
    simpa [pcs, Pc.making] using making
  | loadDown ci tid' h up => exact absurd down up
  | _ => simp_all [Pc.making]

/-- A child keeps the pointer until it ups the semaphore. -/
theorem Steps.aux {p : ThreadPtr} (hst : Steps k t k') (hb : t < k.created)
    (new : (k'.pcs t).aux = some p) :
    (k.pcs t).aux = some p ∧ ∀ tid, ExecAux.Open (k.process p).aux tid →
      ExecAux.Open (k'.process p).aux tid := by
  cases hst with
  | start aux h | load aux _ h =>
    have eq : aux = p := by simpa [pcs, Pc.aux] using new
    subst eq
    refine ⟨by rw [h]; rfl, fun tid answer => ?_⟩
    by_cases own : aux = t
    · subst own
      simpa using answer
    · simpa [modify_process_ne k _ own] using answer
  | storeSuccess aux success h =>
    have eq : aux = p := by simpa [pcs, Pc.aux] using new
    subst eq
    refine ⟨by rw [h]; rfl, fun tid answer => ?_⟩
    by_cases own : aux = t
    · subst own
      simpa [ExecAux.Open] using answer
    · simpa [modify_process_ne _ _ own, ExecAux.Open] using answer
  | create =>
    simp [pcs, modify_process_ne _ _ (Nat.ne_of_lt hb)] at new
    cases new
  | loadUp aux success =>
    simp [pcs] at new
    split at new <;> cases new
  | _ =>
    simp [pcs] at new
    cases new

theorem Steps.fresh {ci : CiPtr} (hst : Steps k t k') (hb : t < k.created)
    (new : k'.pcs t = .threadCreate ci) : ExecAux.Open (k'.process t).aux (k'.process t).tid := by
  cases hst with
  | allocate => simp [ExecAux.Open]
  | create => simp [pcs, modify_process_ne _ _ (Nat.ne_of_lt hb)] at new
  | loadUp aux success =>
    simp only [goto, pcs, modify_process_self] at new
    split at new <;> cases new
  | _ => simp [pcs] at new

theorem Starting.step (inv : Starting k) (numbered : Numbered k) (hb : t < k.created)
    (hst : Steps k t k') : Starting k' := by
  have frame := hst.frame
  -- the argument of another process is not `t`'s to write
  have hk : ∀ u < k.created, u ≠ t → ∀ tid,
    ((k.pcs u).making = some tid ∧ tid ≠ (k.process t).tid) ∨
      (k.pcs u).making = none → (k'.process u).aux = (k.process u).aux := by
    intro u lt ne tid making
    refine frame.aux u lt ne fun aux => ?_
    have hw := (inv.waits t hb u aux).2.2
    rcases making with ⟨same, differs⟩ | none
    · exact differs (some.inj (same.symm.trans hw))
    · cases none.symm.trans hw
  have old : ∀ c < k.created, ∀ p, (k'.pcs c).aux = some p → p < k'.created ∧
      ExecAux.Open (k'.process p).aux (k'.process p).tid ∧
      (k'.pcs p).making = some (k'.process c).tid := by
    intro c lt p aux
    rw [frame.tid c lt]
    by_cases eq : c = t
    · subst eq
      obtain ⟨was, same⟩ := hst.aux hb aux
      obtain ⟨bound', answer, making⟩ := inv.waits c hb p was
      have ne : p ≠ c := by
        rintro rfl
        cases pc : k.pcs p <;> simp_all [Pc.aux, Pc.making]
      rw [frame.tid p bound']
      refine ⟨Nat.lt_of_lt_of_le bound' frame.created, same _ answer, ?_⟩
      rw [pcs, frame.pc p bound' ne]
      exact making
    · have was : (k.pcs c).aux = some p := by rwa [pcs, frame.pc c lt eq] at aux
      obtain ⟨bound', answer, making⟩ := inv.waits c lt p was
      rw [frame.tid p bound']
      refine ⟨Nat.lt_of_lt_of_le bound' frame.created, ?_⟩
      by_cases own : p = t
      · subst own
        obtain ⟨making', same⟩ := hst.making making answer.1
        exact ⟨same ▸ answer, making'⟩
      · have ha : (k.process c).tid ≠ (k.process t).tid :=
          fun same => eq (numbered.distinct c lt t hb same)
        rw [hk p bound' own _ (.inl ⟨making, ha⟩), pcs, frame.pc p bound' own]
        exact ⟨answer, making⟩
  have oldFresh : ∀ u < k.created, ∀ ci, k'.pcs u = .threadCreate ci →
      ExecAux.Open (k'.process u).aux (k'.process u).tid := by
    intro u lt ci new
    by_cases eq : u = t
    · subst eq
      exact hst.fresh hb new
    · rw [pcs, frame.pc u lt eq] at new
      rw [hk u lt eq 0 (.inr (by rw [pcs, new]; rfl)), frame.tid u lt]
      exact inv.fresh u lt ci new
  rcases hst.created hb with ⟨created, -⟩ | ⟨ci, h, created, -, hm, parent⟩
  · exact ⟨fun c lt => old c (created ▸ lt), fun u lt => oldFresh u (created ▸ lt)⟩
  · have split : ∀ {u}, u < k'.created → u = k.created ∨ u < k.created := by
      intro u lt
      rw [created] at lt
      exact (Nat.lt_succ_iff_lt_or_eq.mp lt).symm
    refine ⟨fun c lt p aux => ?_, fun u lt ci' new => ?_⟩
    · rcases split lt with rfl | bound'
      · have eq : t = p := by simpa [pcs, hm, Pc.aux] using aux
        subst eq
        refine ⟨Nat.lt_of_lt_of_le hb frame.created, ?_, ?_⟩
        · rw [parent]
          exact inv.fresh t hb ci h
        · rw [pcs, parent, hm]
          rfl
      · exact old c bound' p aux
    · rcases split lt with rfl | bound'
      · simp [pcs, hm] at new
      · exact oldFresh u bound' ci' new

theorem starting_boot : Starting boot where
  waits c bound p aux := by
    rw [Nat.lt_one_iff.mp bound] at aux
    cases aux
  fresh t bound ci new := by
    rw [Nat.lt_one_iff.mp bound] at new
    cases new

/-- Everything the next step of a process touches is still there. -/
theorem uses_alive (safe : Safe k) (starting : Starting k) (hb : t < k.created) :
    ∀ m ∈ k.uses t, k.alive m = true := by
  have child : ∀ ci ∈ (k.process t).children, k.alive (.info ci) = true :=
    fun ci mem => (safe.owned t ci mem).2
  have frame : ∀ p, (k.pcs t).aux = some p → k.alive (.process p) = true := by
    intro p aux
    obtain ⟨lt, -, making⟩ := starting.waits t hb p aux
    refine safe.working p lt fun gone => ?_
    rw [gone] at making
    cases making
  intro m used
  unfold uses at used
  cases pc : (k.process t).pc with
  | storeTid ci tid =>
    simp only [pc, mem_singleton] at used
    subst used
    exact (safe.loose t ci (by rw [pcs, pc]; rfl)).2.1
  | pushBack ci tid =>
    simp only [pc, mem_cons, mem_toList, map_eq_some_iff] at used
    rcases used with rfl | ⟨last, isLast, rfl⟩
    · exact (safe.loose t ci (by rw [pcs, pc]; rfl)).2.1
    · exact child last (mem_of_getLast? isLast)
  | remove ci =>
    simp only [pc, mem_cons, mem_toList, map_eq_some_iff] at used
    rcases used with rfl | ⟨last, isLast, rfl⟩
    · obtain ⟨was, eq⟩ := safe.last t ci (by rw [pcs, pc]; rfl)
      refine child ci ?_
      rw [show (k.process t).children = was ++ [ci] from eq]
      exact mem_append_right _ (mem_singleton_self ci)
    · exact child last (mem_of_mem_erase (mem_of_getLast? isLast))
  | start aux | storeSuccess aux _ | loadUp aux _ =>
    simp only [pc, mem_singleton] at used
    subst used
    exact frame aux (by rw [pcs, pc]; rfl)
  | waitTest tid e =>
    cases e with
    | none => simp [pc] at used
    | some ci =>
      simp only [pc, mem_singleton] at used
      subst used
      exact child ci (safe.awaits t ci (by rw [pcs, pc]; rfl))
  | waitCheck tid ci | waitDown tid ci | waitRead tid ci =>
    simp only [pc, mem_singleton] at used
    subst used
    exact child ci (safe.awaits t ci (by rw [pcs, pc]; rfl))
  | searchBegin found =>
    simp only [pc, mem_singleton] at used
    subst used
    exact safe.finds t found (by rw [pcs, pc]; rfl)
  | searchTest found e =>
    cases e with
    | none => simp [pc] at used
    | some ci =>
      simp only [pc, mem_singleton] at used
      subst used
      exact (safe.walks t ci (by rw [pcs, pc]; rfl)).2
  | searchNext _ ci | storeStatus ci | waitUp ci =>
    simp only [pc, mem_singleton] at used
    subst used
    exact (safe.walks t ci (by rw [pcs, pc]; rfl)).2
  | _ => simp [pc] at used

/-- What holds of the memory in every run in which each step is prudent. -/
@[grind cases] structure Sound (k : System) : Prop where
  safe : Safe k
  numbered : Numbered k
  starting : Starting k

theorem sound_boot : Sound boot := ⟨safe_boot, numbered_boot, starting_boot⟩

theorem Sound.step {e : Event} (hs : Sound k) (prudent : k.Prudent e)
    (h : k.step e = some k') : Sound k' := by
  obtain ⟨hb, hst⟩ := step_steps h
  exact ⟨hs.safe.step prudent h, hs.numbered.step hb hst,
    hs.starting.step hs.numbered hb hst⟩

/-- No child of the process that takes the step has found it in `process_exit` and is still in the
search of its list. -/
def Undisturbed (k : System) (e : Event) : Prop :=
  ∀ u < k.created, (k.pcs u).searching = true → (k.process u).parentTid ≠ (k.process e.actor).tid

instance (k : System) : DecidablePred k.Undisturbed := fun _ =>
  inferInstanceAs (Decidable (∀ u < k.created, _ → _))

/-- A search goes through the list of the parent as it is. -/
def Watched (k : System) : Prop :=
  ∀ u < k.created, (k.pcs u).searching = true → ∃ p < k.created,
    (k.process p).tid = (k.process u).parentTid ∧
      (∀ found, (k.pcs u).found = some found → found = p) ∧
      ∀ ci, (k.pcs u).walks = some ci → ci ∈ (k.process p).children

theorem Watched.prudent {e : Event} (watched : Watched k) (safe : Safe k) (ok : k.Undisturbed e) :
    k.Prudent e := by
  unfold Prudent
  split
  · rename_i ci hp
    intro u hb walks
    obtain ⟨p, _, _, _, own⟩ := watched u hb (Pc.searching_of_walks walks)
    exact (safe.loose e.actor ci (hp ▸ rfl)).2.2 p (own ci walks)
  · intro _ u hb finds
    obtain ⟨p, _, tid, same, _⟩ := watched u hb (Pc.searching_of_finds finds)
    rw [← same e.actor (Pc.found_of_finds finds)] at tid
    exact ok u hb (Pc.searching_of_finds finds) tid.symm
  · trivial

theorem tid_goto (t p : ThreadPtr) (pc : Pc) :
    ((k.goto t pc).process p).tid = (k.process p).tid := by
  by_cases same : p = t <;> simp [modify, same]

theorem children_goto (t p : ThreadPtr) (pc : Pc) :
    ((k.goto t pc).process p).children = (k.process p).children := by
  by_cases same : p = t <;> simp [modify, same]

theorem Watched.step {e : Event} (watched : Watched k) (safe : Safe k) (ok : k.Undisturbed e)
    (h : k.step e = some k') : Watched k' := by
  obtain ⟨hb, hst⟩ := step_steps h
  unfold Undisturbed at ok
  generalize e.actor = t at hb hst ok
  have frame := hst.frame
  intro u bound busy
  by_cases old : u < k.created
  · by_cases own : u = t
    · subst own
      cases hst with
      | lookup found hp some =>
        obtain ⟨listed, tid⟩ := mem_of_findThreadByTid some
        refine ⟨found, (safe.listed found listed).1, ?_, ?_, by simp [pcs, Pc.walks]⟩
        · rw [frame.tid found (safe.listed found listed).1, tid]
          simp
        · simp [pcs, Pc.found]
      | searchBegin found hp =>
        obtain ⟨p, lt, tid, same, -⟩ := watched u old (by rw [hp]; rfl)
        obtain rfl := same found (by rw [hp]; rfl)
        refine ⟨found, lt, by rw [tid_goto, tid]; simp, by simp [pcs, Pc.found], ?_⟩
        intro ci walks
        simp only [pcs_goto, update_self, Pc.walks_searchTest] at walks
        rw [children_goto]
        exact mem_of_mem_head? (mem_def.mpr walks)
      | searchHere found ci hp | searchPast found ci hp | storeStatus ci hp =>
        obtain ⟨p, lt, tid, same, walks⟩ := watched u old (by rw [hp]; rfl)
        rw [hp] at same walks
        refine ⟨p, lt, by rw [tid_goto]; simpa using tid, ?_, ?_⟩
        · simp_all [pcs, Pc.found]
        · rw [children_goto]
          simpa [pcs, Pc.walks] using walks
      | searchNext found ci hp =>
        obtain ⟨p, lt, tid, same, -⟩ := watched u old (by rw [hp]; rfl)
        obtain rfl := same found (by rw [hp]; rfl)
        refine ⟨found, lt, by rw [tid_goto, tid]; simp, by simp [pcs, Pc.found], ?_⟩
        intro ci' walks
        simp only [pcs_goto, update_self, Pc.walks_searchTest] at walks
        rw [children_goto]
        exact mem_of_listNext walks
      | loadUp aux success hp => cases success <;> simp [pcs, Pc.searching] at busy
      | create ci hp =>
        rw [pcs] at busy
        simp [modify, old.ne, Pc.searching] at busy
      | _ => simp [pcs, Pc.searching] at busy
    · have pc : k'.pcs u = k.pcs u := frame.pc u old own
      rw [pc] at busy
      obtain ⟨p, lt, tid, same, hw⟩ := watched u old busy
      have other : p ≠ t := by
        rintro rfl
        exact ok u old busy tid.symm
      refine ⟨p, lt.trans_le frame.created, ?_, pc ▸ same, ?_⟩
      · rw [frame.tid p lt, frame.parentTid u old own, tid]
      · rw [pc, frame.children p lt other]
        exact hw
  · rcases hst.created hb with ⟨created, -⟩ | ⟨ci, -, created, -, new, -⟩
    · exact absurd (created ▸ bound) old
    · obtain rfl : u = k.created := by omega
      rw [pcs, new] at busy
      cases busy

theorem watched_boot : Watched boot := by
  intro u hb busy
  rw [Nat.lt_one_iff.mp hb] at busy
  cases busy

/-- Whatever the interleaving, a run in which no process moves while a child of its own searches its
list touches no record or thread that is gone. -/
theorem no_dead_use {history : List Event} (run : Machine.Run step Undisturbed boot history k)
    (t : ThreadPtr) (born : t < k.created) : ∀ m ∈ k.uses t, k.alive m = true := by
  have inv : Sound k ∧ Watched k := by
    refine run.invariant (I := fun k => Sound k ∧ Watched k) ⟨sound_boot, watched_boot⟩ ?_
    rintro _ e _ ⟨hs, watched⟩ ok h
    exact ⟨hs.step (watched.prudent hs.safe ok) h, watched.step hs.safe ok h⟩
  exact uses_alive inv.1.safe inv.1.starting born

/-- The steps of `process_execute` up to the wait for the child. -/
def executes (t : ThreadPtr) : List Event :=
  .request t .execute :: replicate 4 (.exec t true)

/-- `start_process`, up to the program or to `process_exit`. -/
def loads (t : ThreadPtr) (success : Bool) : List Event :=
  [.exec t true, .exec t success, .exec t true, .exec t true]

/-- The initial thread starts a program that cannot be loaded: the child exits and is destroyed, and
its record is freed. The next one is waited for and is in its `process_exit`. -/
def failsThenWaits : List Event :=
  executes 0 ++ loads 1 false ++ replicate 6 (.exec 1 true) ++ replicate 4 (.exec 0 true) ++
  executes 0 ++ loads 2 true ++ [.exec 0 true, .exec 0 true, .request 0 (.wait 4)] ++
  replicate 2 (.exec 0 true) ++ .request 2 (.exit (some 7)) :: replicate 3 (.exec 2 true)

theorem no_dead_use_failsThenWaits :
    ∃ k, Machine.runs step Undisturbed boot failsThenWaits = some k ∧
      k.alive (.process 1) = false ∧ k.alive (.info 0) = false ∧
      k.uses 0 = [.info 1] ∧ k.uses 2 = [.info 1] ∧ ∀ t < k.created, ∀ m ∈ k.uses t, k.alive m =
        true := by
  have state : (Machine.runs step Undisturbed boot failsThenWaits).map
      (fun k => (k.alive (.process 1), k.alive (.info 0), k.uses 0, k.uses 2)) =
        some (false, false, [.info 1], [.info 1]) := by decide +kernel
  obtain ⟨k, hr, seen⟩ := map_eq_some_iff.mp state
  simp only [Prod.mk.injEq] at seen
  obtain ⟨destroyed, freed, parent, child⟩ := seen
  exact ⟨k, hr, destroyed, freed, parent, child, no_dead_use (Machine.runs_run hr)⟩

/-- A program cannot be loaded. Its `process_exit` has found its record when
`process_execute` removes and frees it. -/
def freeUnderExit : List Event :=
  executes 0 ++ loads 1 false ++ replicate 3 (.exec 1 true) ++ replicate 4 (.exec 0 true)

/-- A program starts another one, which exits and looks its parent up. Then the
parent exits and is destroyed. -/
def parentDestroyed : List Event :=
  executes 0 ++ loads 1 true ++ executes 1 ++ loads 2 true ++ replicate 2 (.exec 1 true) ++
  [.request 2 (.exit (some 0)), .exec 2 true, .request 1 (.exit (some 0))] ++
  replicate 6 (.exec 1 true)

theorem dead_uses :
    (∃ k, Machine.runs step Machine.Free boot freeUnderExit = some k ∧
      k.pcs 1 = .storeStatus 0 ∧ .info 0 ∈ k.uses 1 ∧ k.alive (.info 0) = false) ∧
    ∃ k, Machine.runs step Machine.Free boot parentDestroyed = some k ∧
      k.pcs 2 = .searchBegin 1 ∧ .process 1 ∈ k.uses 2 ∧ k.alive (.process 1) = false := by
  have freed : (Machine.runs step Machine.Free boot freeUnderExit).map
      (fun k => (k.pcs 1, k.uses 1, k.alive (.info 0))) =
        some (.storeStatus 0, [.info 0], false) := by decide +kernel
  have destroyed : (Machine.runs step Machine.Free boot parentDestroyed).map
      (fun k => (k.pcs 2, k.uses 2, k.alive (.process 1))) =
        some (.searchBegin 1, [.process 1], false) := by decide +kernel
  obtain ⟨k, hr, seen⟩ := map_eq_some_iff.mp freed
  obtain ⟨k', reached', seen'⟩ := map_eq_some_iff.mp destroyed
  simp only [Prod.mk.injEq] at seen seen'
  obtain ⟨pc, uses, dead⟩ := seen
  obtain ⟨pc', uses', dead'⟩ := seen'
  exact ⟨⟨k, hr, pc, by simp [uses], dead⟩, k', reached', pc', by simp [uses'], dead'⟩

end

end System

end Pintos.Userprog
