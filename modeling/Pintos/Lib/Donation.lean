import Mathlib.Order.Bounds.Basic
import Mathlib.Order.MinMax
import Mathlib.Data.List.Nodup

/-!
# Priority donation

Threads wait for locks, and a thread lends its priority to whoever holds the
lock it waits for, who lends it on. Every thread keeps a list of its donors and
the priority it runs at; the list is what the priority is computed from again
when a lock is given up. A donation is passed along a chain of waiters for a
bounded number of links only.

`callers l` is what the lists stand for: the threads that began to wait for `l`
under its present holder.
-/

namespace Pintos.Donation

open Function

structure State (T L P : Type*) where
  priority : T → P
  base : T → P
  waiting : T → Option L
  holder : L → Option T
  donors : T → List T

variable {T L P : Type*} [LinearOrder P]

theorem foldl_max_le {f : T → P} {ds : List T} :
    ∀ {m : P}, m ≤ ds.foldl (fun m d => max m (f d)) m ∧
    ∀ d ∈ ds, f d ≤ ds.foldl (fun m d => max m (f d)) m := by
  induction ds with
  | nil => intro m; simp
  | cons d ds ih => grind

theorem foldl_max_mem {f : T → P} {ds : List T} : ∀ {m : P},
    ds.foldl (fun m d => max m (f d)) m = m ∨
      ∃ d ∈ ds, ds.foldl (fun m d => max m (f d)) m = f d := by
  induction ds with
  | nil => intro m; exact .inl rfl
  | cons d ds ih => grind

variable [DecidableEq T]

namespace State

def raise (s : State T L P) (h : T) (p : P) : State T L P :=
  { s with priority := update s.priority h p }

/-- The next link of the chain of donations: the holder that was raised. -/
def pass (s : State T L P) (t : T) : Option (State T L P × T) :=
  match s.waiting t with
  | none => none
  | some l =>
    match s.holder l with
    | none => none
    | some h => if s.priority h ≥ s.priority t then none else some (s.raise h (s.priority t), h)

def walk : Nat → State T L P → T → State T L P × T
  | 0, s, t => (s, t)
  | depth + 1, s, t =>
    match s.pass t with
    | none => (s, t)
    | some (s', h) => walk depth s' h

def register (s : State T L P) (t : T) (l : L) (h : T) : State T L P :=
  { s with
    waiting := update s.waiting t (some l)
    donors := update s.donors h (s.donors h ++ [t]) }

def take [DecidableEq L] (s : State T L P) (t : T) (l : L) : State T L P :=
  { s with
    waiting := update s.waiting t none
    holder := update s.holder l (some t) }

def effective (s : State T L P) (t : T) : P :=
  (s.donors t).foldl (fun m d => max m (s.priority d)) (s.base t)

def refresh (s : State T L P) (t : T) : State T L P := s.raise t (s.effective t)

def drop [DecidableEq L] (s : State T L P) (t : T) (l : L) : State T L P :=
  { s with
    holder := update s.holder l none
    donors := update s.donors t ((s.donors t).filter fun d => s.waiting d ≠ some l) }

def give [DecidableEq L] (s : State T L P) (t : T) (l : L) : State T L P := (s.drop t l).refresh t

def rebase (s : State T L P) (t : T) (p : P) : State T L P :=
  { s with base := update s.base t p }

def setBase (s : State T L P) (t : T) (p : P) : State T L P := (s.rebase t p).refresh t

theorem pass_eq {s s' : State T L P} {t h : T} (step : s.pass t = some (s', h)) :
    ∃ l, s.waiting t = some l ∧ s.holder l = some h ∧ s.priority h < s.priority t ∧
      s' = s.raise h (s.priority t) := by
  unfold pass at step
  split at step
  · cases step
  · rename_i l waiting
    split at step
    · cases step
    · rename_i h' held
      split_ifs at step with he
      cases step
      exact ⟨l, waiting, held, not_le.mp he, rfl⟩

theorem le_of_pass_none {s : State T L P} {t h : T} {l : L} (stopped : s.pass t = none)
    (waiting : s.waiting t = some l) (held : s.holder l = some h) :
    s.priority t ≤ s.priority h := by
  by_contra lower
  simp [pass, waiting, held, not_le.mp lower] at stopped

end State

/-- What the lists of donors say, and where a priority above the base comes from. -/
@[grind cases] structure Sound (callers : L → List T) (s : State T L P) : Prop where
  listed : ∀ d h, d ∈ s.donors h ↔ ∃ l, s.holder l = some h ∧ d ∈ callers l
  waits : ∀ l, ∀ d ∈ callers l, s.waiting d = some l
  free : ∀ l, s.holder l = none → callers l = []
  distinct : ∀ t, (s.donors t).Nodup
  base : ∀ t, s.base t ≤ s.priority t
  lent : ∀ t, s.priority t ≤ s.base t ∨
    ∃ d l, s.waiting d = some l ∧ s.holder l = some t ∧ s.priority t ≤ s.priority d

/-- No donor, `except` apart, is above the thread it donates to. -/
def Below (s : State T L P) (except : T → Prop) : Prop :=
  ∀ d h, d ∈ s.donors h → ¬ except d → s.priority d ≤ s.priority h

/-- Between operations there is no exception, if every donation was passed on in `full`. -/
@[grind cases] structure Steady (full : Prop) (callers : L → List T) (s : State T L P) : Prop
    extends Sound callers s where
  below : full → ∀ d h, d ∈ s.donors h → s.priority d ≤ s.priority h

namespace Sound

variable {full : Prop} {callers : L → List T} {s s' : State T L P} {t h d : T} {l : L}

section
variable (hs : Sound callers s)
include hs
omit [DecidableEq T]

theorem registered (donor : d ∈ s.donors h) : ∃ l, s.waiting d = some l ∧ s.holder l = some h := by
  grind

theorem one_list {h' : T} (donor : d ∈ s.donors h) (donor' : d ∈ s.donors h') : h = h' := by
  grind

/-- Nothing is lent to a thread that holds no lock. -/
theorem undone (free : ∀ l, s.holder l ≠ some t) : s.priority t = s.base t := by
  grind

theorem not_donor (hi : s.waiting t = none) : t ∉ s.donors h := by
  grind

end

theorem of_raised {p : P} (hs : Sound callers s) (base : s.base h ≤ p)
    (lent : ∀ u, (s.raise h p).priority u ≤ s.base u ∨ ∃ d l, s.waiting d = some l ∧
      s.holder l = some u ∧ (s.raise h p).priority u ≤ (s.raise h p).priority d) :
    Sound callers (s.raise h p) where
  listed := hs.listed
  waits := hs.waits
  free := hs.free
  distinct := hs.distinct
  base u := by
    by_cases eq : u = h
    · simpa [State.raise, eq] using base
    · simpa [State.raise, eq] using hs.base u
  lent := lent

theorem raise_above {s : State T L P} {t h : T} (lower : s.priority h < s.priority t) (u : T) :
    s.priority u ≤ (s.raise h (s.priority t)).priority u := by
  by_cases eq : u = h
  · simpa [State.raise, eq] using lower.le
  · simp [State.raise, eq]

/-- One link: the raised holder has a waiter of its new priority. -/
theorem pass (hs : Sound callers s) (step : s.pass t = some (s', h)) : Sound callers s' := by
  obtain ⟨l, waiting, held, lower, rfl⟩ := State.pass_eq step
  refine hs.of_raised ((hs.base h).trans lower.le) fun u => ?_
  by_cases eq : u = h
  · refine .inr ⟨t, l, waiting, eq ▸ held, ?_⟩
    simpa [State.raise, eq] using raise_above lower t
  · have same : (s.raise h (s.priority t)).priority u = s.priority u := by
      simp [State.raise, eq]
    rw [same]
    rcases hs.lent u with own | ⟨d, l', hw, holds, le⟩
    · exact .inl own
    · exact .inr ⟨d, l', hw, holds, le.trans (raise_above lower d)⟩

/-- The raised holder is now the only donor that can be above the thread it donates to. -/
theorem pass_below (hs : Sound callers s) (hb : Below s (· = t))
    (step : s.pass t = some (s', h)) : Below s' (· = h) := by
  obtain ⟨l, waiting, held, lower, rfl⟩ := State.pass_eq step
  intro d u donor ne
  have eq : (s.raise h (s.priority t)).priority d = s.priority d := by
    simp [State.raise, ne]
  rw [eq]
  by_cases first : d = t
  · -- the only thread `t` donates to is the one just raised
    subst first
    obtain ⟨l', hw, holds⟩ := hs.registered donor
    rw [waiting] at hw
    cases hw
    rw [held] at holds
    cases holds
    simp [State.raise]
  · exact (hb d u donor first).trans (raise_above lower u)

theorem walk (depth : Nat) : ∀ {s : State T L P} {t : T}, Sound callers s →
    (full → Below s (· = t)) → Sound callers (State.walk depth s t).1 ∧
      (full → Below (State.walk depth s t).1 (· = (State.walk depth s t).2)) := by
  induction depth with
  | zero => exact fun hs hb => ⟨hs, hb⟩
  | succ depth ih =>
    intro s t hs hb
    unfold State.walk
    split
    · exact ⟨hs, hb⟩
    · rename_i s' h step
      exact ih (hs.pass step) fun all => hs.pass_below (hb all) step

theorem steady (hs : Sound callers s) (below : full → Below s (· = t))
    (stopped : full → s.pass t = none) : Steady full callers s where
  toSound := hs
  below all d h donor := by
    by_cases last : d = t
    · subst last
      obtain ⟨l, waiting, held⟩ := hs.registered donor
      exact State.le_of_pass_none (stopped all) waiting held
    · exact below all d h donor last

end Sound

namespace Steady

variable {full : Prop} {callers : L → List T} {s : State T L P} {t h : T} {l : L}

/-- A thread begins to wait: its own donation is the only one not yet made. -/
theorem register [DecidableEq L] (hs : Steady full callers s) (hi : s.waiting t = none)
    (held : s.holder l = some h) :
    Sound (update callers l (t :: callers l)) (s.register t l h) ∧
      (full → Below (s.register t l h) (· = t)) := by
  have hf : ∀ {d l'}, s.waiting d = some l' → d ≠ t := by
    intro d l' waiting eq
    rw [eq, hi] at waiting
    cases waiting
  have keeps : ∀ {d l'}, s.waiting d = some l' → (s.register t l h).waiting d = some l' := by
    intro d l' waiting
    simpa [State.register, hf waiting] using waiting
  refine ⟨⟨?_, ?_, ?_, ?_, hs.base, ?_⟩, ?_⟩
  · intro d h'
    have old := hs.listed d h'
    constructor
    · intro donor
      by_cases new : h' = h ∧ d = t
      · exact ⟨l, new.1 ▸ held, by simp [new.2]⟩
      · have donor' : d ∈ s.donors h' := by
          by_cases same : h' = h
          · have ne : d ≠ t := fun eq => new ⟨same, eq⟩
            subst same
            simpa [State.register, ne] using donor
          · simpa [State.register, same] using donor
        obtain ⟨l', holds, hc⟩ := old.mp donor'
        refine ⟨l', holds, ?_⟩
        by_cases same : l' = l
        · subst same
          simp [hc]
        · simpa [same] using hc
    · rintro ⟨l', holds, hc⟩
      change s.holder l' = some h' at holds
      by_cases same : l' = l
      · subst same
        cases held.symm.trans holds
        rcases List.mem_cons.mp (by simpa using hc) with rfl | was
        · simp [State.register]
        · simp [State.register, old.mpr ⟨l', held, was⟩]
      · have donor := old.mpr ⟨l', holds, by simpa [same] using hc⟩
        by_cases own : h' = h
        · subst own
          simp [State.register, donor]
        · simpa [State.register, own] using donor
  · intro l' d hc
    by_cases same : l' = l
    · subst same
      rcases List.mem_cons.mp (by simpa using hc) with rfl | was
      · simp [State.register]
      · exact keeps (hs.waits l' d was)
    · exact keeps (hs.waits l' d (by simpa [same] using hc))
  · intro l' free
    have other : l' ≠ l := by
      intro eq
      rw [eq] at free
      cases held.symm.trans free
    simpa [other] using hs.free l' free
  · intro u
    by_cases own : u = h
    · subst own
      have new : t ∉ s.donors u := hs.not_donor hi
      have nodup := List.Nodup.concat new (hs.distinct u)
      simpa [State.register] using nodup
    · simpa [State.register, own] using hs.distinct u
  · intro u
    rcases hs.lent u with own | ⟨d, l', waiting, holds, le⟩
    · exact .inl own
    · exact .inr ⟨d, l', keeps waiting, holds, le⟩
  · intro all d h' donor other
    apply hs.below all d h'
    by_cases own : h' = h
    · subst own
      simpa [State.register, other] using donor
    · simpa [State.register, own] using donor

/-- A free lock is taken, by a thread that waited for it or for none. -/
theorem take [DecidableEq L] (hs : Steady full callers s) (free : s.holder l = none)
    (hi : ∀ l', s.waiting t = some l' → l' = l) : Steady full callers (s.take t l) := by
  have none_called := hs.free l free
  have holds : ∀ {l' u}, s.holder l' = some u → (s.take t l).holder l' = some u := by
    intro l' u held
    have ne : l' ≠ l := by
      rintro rfl
      cases free.symm.trans held
    simpa [State.take, ne] using held
  have keeps : ∀ {d l' u}, s.waiting d = some l' → s.holder l' = some u →
      (s.take t l).waiting d = some l' := by
    intro d l' u waiting held
    have ne : d ≠ t := by
      rintro rfl
      cases hi l' waiting
      cases free.symm.trans held
    simpa [State.take, ne] using waiting
  refine ⟨⟨?_, ?_, ?_, hs.distinct, hs.base, ?_⟩, hs.below⟩
  · intro d h
    refine (hs.listed d h).trans ⟨?_, ?_⟩
    · rintro ⟨l', held, hc⟩
      exact ⟨l', holds held, hc⟩
    · rintro ⟨l', held, hc⟩
      by_cases eq : l' = l
      · rw [eq, none_called] at hc
        cases hc
      · exact ⟨l', by simpa [State.take, eq] using held, hc⟩
  · intro l' d hc
    cases held : s.holder l' with
    | none =>
      rw [hs.free l' held] at hc
      cases hc
    | some u => exact keeps (hs.waits l' d hc) held
  · intro l' free'
    by_cases eq : l' = l
    · exact eq ▸ none_called
    · exact hs.free l' (by simpa [State.take, eq] using free')
  · intro u
    rcases hs.lent u with own | ⟨d, l', waiting, held, le⟩
    · exact .inl own
    · exact .inr ⟨d, l', keeps waiting held, holds held, le⟩

/-- Computing the priority of a thread that waits for nothing again. What is
asked of the state is soundness for every other thread. -/
theorem refresh (hi : s.waiting t = none)
    (hl : ∀ d h, d ∈ s.donors h ↔ ∃ l, s.holder l = some h ∧ d ∈ callers l)
    (hw : ∀ l, ∀ d ∈ callers l, s.waiting d = some l)
    (free : ∀ l, s.holder l = none → callers l = [])
    (distinct : ∀ u, (s.donors u).Nodup)
    (base : ∀ u, u ≠ t → s.base u ≤ s.priority u)
    (lent : ∀ u, u ≠ t → s.priority u ≤ s.base u ∨
      ∃ d l, s.waiting d = some l ∧ s.holder l = some u ∧ s.priority u ≤ s.priority d)
    (hb : full → ∀ d h, h ≠ t → d ∈ s.donors h → s.priority d ≤ s.priority h) :
    Steady full callers (s.refresh t) := by
  have self : (s.refresh t).priority t = s.effective t := by simp [State.refresh, State.raise]
  have other : ∀ {u}, u ≠ t → (s.refresh t).priority u = s.priority u := by
    intro u ne
    simp [State.refresh, State.raise, ne]
  have waiter : ∀ {d l}, s.waiting d = some l → d ≠ t := by
    intro d l waiting eq
    rw [eq, hi] at waiting
    cases waiting
  have donor_waits : ∀ {d h}, d ∈ s.donors h → ∃ l, s.waiting d = some l ∧ s.holder l = some h := by
    grind
  refine ⟨⟨hl, hw, free, distinct, ?_, ?_⟩, ?_⟩
  · intro u
    change s.base u ≤ _
    by_cases eq : u = t
    · rw [eq, self]
      exact foldl_max_le.1
    · rw [other eq]
      exact base u eq
  · intro u
    by_cases eq : u = t
    · rw [eq, self]
      rcases foldl_max_mem (f := s.priority) (m := s.base t) with own | ⟨d, donor, same⟩
      · exact .inl own.le
      · obtain ⟨l, waiting, held⟩ := donor_waits donor
        refine .inr ⟨d, l, waiting, held, ?_⟩
        rw [other (waiter waiting)]
        exact same.le
    · rw [other eq]
      rcases lent u eq with own | ⟨d, l, waiting, held, le⟩
      · exact .inl own
      · exact .inr ⟨d, l, waiting, held, by rwa [other (waiter waiting)]⟩
  · intro all d h donor
    obtain ⟨l, waiting, held⟩ := donor_waits donor
    rw [other (waiter waiting)]
    by_cases eq : h = t
    · subst eq
      rw [self]
      exact foldl_max_le.2 d donor
    · rw [other eq]
      exact hb all d h eq donor

theorem setBase (hs : Steady full callers s) (hi : s.waiting t = none) (p : P) :
    Steady full callers (s.setBase t p) := by
  have other : ∀ u, u ≠ t → (s.rebase t p).base u = s.base u := by
    intro u ne
    simp [State.rebase, ne]
  refine refresh hi hs.listed hs.waits hs.free hs.distinct ?_ ?_ ?_
  · intro u ne
    rw [other u ne]
    exact hs.base u
  · intro u ne
    rw [other u ne]
    exact hs.lent u
  · exact fun all d h _ donor => hs.below all d h donor

theorem give [DecidableEq L] (hs : Steady full callers s) (hi : s.waiting t = none)
    (held : s.holder l = some t) : Steady full (update callers l []) (s.give t l) := by
  have holds : ∀ {l' u}, u ≠ t → s.holder l' = some u → (s.drop t l).holder l' = some u := by
    intro l' u ne holds
    have other : l' ≠ l := by
      rintro rfl
      exact ne (Option.some.inj (holds.symm.trans held))
    simpa [State.drop, other] using holds
  have was : ∀ {l' u}, (s.drop t l).holder l' = some u → l' ≠ l ∧ s.holder l' = some u := by
    intro l' u holds
    by_cases eq : l' = l
    · simp [State.drop, eq] at holds
    · exact ⟨eq, by simpa [State.drop, eq] using holds⟩
  refine refresh hi ?_ ?_ ?_ ?_ (fun u _ => hs.base u) ?_ ?_
  · intro d h
    have old := hs.listed d h
    constructor
    · intro donor
      have hk : d ∈ s.donors h ∧ (h = t → s.waiting d ≠ some l) := by
        by_cases own : h = t
        · subst own
          simpa [State.drop] using donor
        · simpa [State.drop, own] using donor
      obtain ⟨l', holds', hc⟩ := old.mp hk.1
      have other : l' ≠ l := by grind
      exact ⟨l', by simpa [State.drop, other] using holds', by simpa [other] using hc⟩
    · rintro ⟨l', holds', hc⟩
      obtain ⟨other, holds'⟩ := was holds'
      have called' : d ∈ callers l' := by simpa [other] using hc
      have donor := old.mpr ⟨l', holds', called'⟩
      by_cases own : h = t
      · subst own
        simpa [State.drop, donor, hs.waits l' d called'] using other
      · simpa [State.drop, own] using donor
  · intro l' d hc
    by_cases eq : l' = l
    · simp [eq] at hc
    · exact hs.waits l' d (by simpa [eq] using hc)
  · intro l' free
    by_cases eq : l' = l
    · simp [eq]
    · simpa [eq] using hs.free l' (by simpa [State.drop, eq] using free)
  · intro u
    by_cases own : u = t
    · subst own
      have nodup := List.Nodup.filter (fun d => decide (s.waiting d ≠ some l)) (hs.distinct u)
      simpa only [State.drop, update_self] using nodup
    · simpa [State.drop, own] using hs.distinct u
  · intro u ne
    rcases hs.lent u with own | ⟨d, l', waiting, holds', le⟩
    · exact .inl own
    · exact .inr ⟨d, l', waiting, holds ne holds', le⟩
  · intro all d h ne donor
    exact hs.below all d h (by simpa [State.drop, ne] using donor)

omit [DecidableEq T] in
/-- When every thread that waits for a lock of `t` is among its donors, `t` runs
at the highest of its base priority and their priorities. -/
theorem isGreatest (hs : Steady True callers s)
    (hc : ∀ d l, s.waiting d = some l → s.holder l = some t → d ∈ callers l) :
    IsGreatest (insert (s.base t) {p | ∃ d l, s.waiting d = some l ∧ s.holder l = some t ∧
      s.priority d = p}) (s.priority t) := by
  have above : ∀ d l, s.waiting d = some l → s.holder l = some t → s.priority d ≤ s.priority t :=
    fun d l waiting held =>
      hs.below trivial d t ((hs.listed d t).mpr ⟨l, held, hc d l waiting held⟩)
  constructor
  · grind
  · rintro p (rfl | ⟨d, l, waiting, held, rfl⟩)
    · exact hs.base t
    · exact above d l waiting held

end Steady

end Pintos.Donation
