import Mathlib.Data.List.Nodup
import Pintos.Userprog.PageMap

/-!
# What pagedir_destroy frees

The pages come in a fixed order: the frames of each page table before the table, and the directory
last. A page that is freed is overwritten, but nothing is read from it any more.
-/

namespace Pintos.Userprog

open Pintos.Paging Prog List

/-- The first `n` frames of page table `i`. -/
def framesOf (frames : Nat → Option Nat) (i n : Nat) : List Nat :=
  (range n).filterMap fun j => frames (1024 * i + j)

/-- The pages that go with page table `i`. -/
def pagesOf (tables frames : Nat → Option Nat) (i : Nat) : List Nat :=
  (tables i).elim [] fun t => framesOf frames i 1024 ++ [t]

def pagesBelow (tables frames : Nat → Option Nat) (n : Nat) : List Nat :=
  (range n).flatMap (pagesOf tables frames)

def pagesIn (pd : Nat) (tables frames : Nat → Option Nat) : List Nat :=
  pagesBelow tables frames (pdNo physBase) ++ [pd]

/-- The frames are the directory's to free. -/
@[grind cases] structure Owned (r : Ram) (pd : Nat) (tables frames : Nat → Option Nat) : Prop where
  used : ∀ u kpage, frames u = some kpage → kpage ∈ r.outstanding
  apart : ∀ u kpage, frames u = some kpage → kpage ≠ pd ∧ ∀ i, tables i ≠ some kpage
  once : ∀ u v kpage, frames u = some kpage → frames v = some kpage → u = v

/-- The pages in `done` have been freed since `r`, in this order. -/
@[grind cases] structure Freed (r : Ram) (done : List Nat) (r' : Ram) : Prop where
  released : r'.released = done.reverse ++ r.released
  obtained : r'.obtained = r.obtained
  outstanding : ∀ p ∈ r.outstanding, p ∉ done → p ∈ r'.outstanding
  word : ∀ p, p % 4096 = 0 → p ∉ done → ∀ i < 1024, r'.word (p + 4 * i) = r.word (p + 4 * i)

variable {r r' : Ram} {pd i m n p : Nat} {tables frames : Nat → Option Nat} {done all : List Nat}

/-! ### The list of pages -/

theorem framesOf_succ (i n : Nat) :
    framesOf frames i (n + 1) = framesOf frames i n ++ (frames (1024 * i + n)).toList := by
  unfold framesOf
  rw [range_succ, filterMap_append]
  cases mapped : frames (1024 * i + n) with
  | none => simp [mapped]
  | some kpage => simp [mapped]

theorem framesOf_isPrefix (le : m ≤ n) : framesOf frames i m <+: framesOf frames i n := by
  induction n, le using Nat.le_induction with
  | base => exact prefix_rfl
  | succ n _ ih =>
    rw [framesOf_succ]
    exact ih.trans (prefix_append _ _)

theorem pagesBelow_succ (n : Nat) :
    pagesBelow tables frames (n + 1) = pagesBelow tables frames n ++ pagesOf tables frames n := by
  unfold pagesBelow
  rw [range_succ, flatMap_append, flatMap_singleton]

theorem pagesBelow_isPrefix (le : m ≤ n) :
    pagesBelow tables frames m <+: pagesBelow tables frames n := by
  induction n, le using Nat.le_induction with
  | base => exact prefix_rfl
  | succ n _ ih =>
    rw [pagesBelow_succ]
    exact ih.trans (prefix_append _ _)

theorem mem_framesOf : p ∈ framesOf frames i 1024 ↔ ∃ u, u / 1024 = i ∧ frames u = some p := by
  unfold framesOf
  rw [mem_filterMap]
  constructor
  · grind
  · rintro ⟨u, rfl, is⟩
    refine ⟨u % 1024, mem_range.mpr (Nat.mod_lt u (by omega)), ?_⟩
    rwa [Nat.div_add_mod]

theorem mem_pagesOf : p ∈ pagesOf tables frames i ↔
    ∃ t, tables i = some t ∧ (p = t ∨ ∃ u, u / 1024 = i ∧ frames u = some p) := by
  unfold pagesOf
  cases is : tables i with
  | none => simp
  | some t => simp [mem_framesOf, or_comm]

theorem mem_pagesIn (hm : Maps r pd tables frames) : p ∈ pagesIn pd tables frames ↔
    (∃ u, frames u = some p) ∨ (∃ i < pdNo physBase, tables i = some p) ∨ p = pd := by
  unfold pagesIn pagesBelow
  simp only [mem_append, mem_flatMap, mem_range, mem_pagesOf, mem_singleton]
  constructor
  · grind
  · rintro (⟨u, mapped⟩ | ⟨i, lower, is⟩ | rfl)
    · obtain ⟨user, _, t, is⟩ := hm.frame u p mapped
      have lower : u / 1024 < pdNo physBase := by
        unfold userPages at user
        rw [pdNo_eq]
        unfold physBase
        omega
      exact .inl ⟨u / 1024, lower, t, is, .inr ⟨u, rfl, mapped⟩⟩
    · exact .inl ⟨i, lower, p, is, .inl rfl⟩
    · exact .inr rfl

theorem pagesIn_nodup (hm : Maps r pd tables frames) (owned : Owned r pd tables frames) :
    (pagesIn pd tables frames).Nodup := by
  have each : ∀ i, (pagesOf tables frames i).Nodup := by
    intro i
    unfold pagesOf
    cases is : tables i with
    | none => exact nodup_nil
    | some t =>
      rw [Option.elim_some, nodup_append]
      refine ⟨?_, nodup_singleton t, ?_⟩
      · apply nodup_range.filterMap
        intro j k p is is'
        have := owned.once _ _ _ is is'
        omega
      · intro p mem q is' eq
        obtain ⟨u, _, mapped⟩ := mem_framesOf.mp mem
        rw [mem_singleton.mp is'] at eq
        exact (owned.apart u p mapped).2 i (eq ▸ is)
  have separate : ∀ i j, i ≠ j → (pagesOf tables frames i).Disjoint (pagesOf tables frames j) := by
    intro i j ne p mem member'
    obtain ⟨t, is, first⟩ := mem_pagesOf.mp mem
    obtain ⟨t', is', second⟩ := mem_pagesOf.mp member'
    rcases first with rfl | ⟨u, number, mapped⟩
    · rcases second with rfl | ⟨v, _, mapped'⟩
      · exact ne (hm.once _ _ _ is is')
      · exact (owned.apart v p mapped').2 i is
    · rcases second with rfl | ⟨v, number', mapped'⟩
      · exact (owned.apart u p mapped).2 j is'
      · have := owned.once u v p mapped mapped'
        omega
  unfold pagesIn
  rw [nodup_append]
  refine ⟨?_, nodup_singleton pd, ?_⟩
  · unfold pagesBelow
    rw [nodup_flatMap]
    exact ⟨fun i _ => each i, nodup_range.imp fun ne => separate _ _ ne⟩
  · intro p mem q is eq
    rw [mem_singleton.mp is] at eq
    subst eq
    obtain ⟨i, _, mem⟩ := mem_flatMap.mp mem
    obtain ⟨t, is, rfl | ⟨u, _, mapped⟩⟩ := mem_pagesOf.mp mem
    · exact (hm.table i p is).2.2.2 rfl
    · exact (owned.apart u p mapped).1 rfl

/-! ### Freeing them -/

theorem Freed.none : Freed r [] r := ⟨rfl, rfl, fun _ used _ => used, fun _ _ _ _ _ => rfl⟩

/-- The next page of a list without repetitions has not been freed yet. -/
theorem not_mem_of_isPrefix (nodup : all.Nodup) (next : done ++ [p] <+: all) : p ∉ done := by
  have := nodup.sublist next.sublist
  rw [nodup_append] at this
  exact fun mem => this.2.2 p mem p (mem_singleton.mpr rfl) rfl

theorem Freed.free (freed : Freed r done r') (page : r.IsPage p) (used : p ∈ r.outstanding)
    (hf : p ∉ done) : Wp (pallocFreePage p) (fun _ r'' => Freed r (done ++ [p]) r'') r' := by
  apply wp_pallocFreePage page.1 (freed.outstanding p used hf)
  constructor
  case released =>
    show p :: r'.released = _
    rw [freed.released, reverse_append]
    rfl
  case obtained => exact freed.obtained
  case outstanding =>
    intro q used' ne
    rw [mem_append, mem_singleton, not_or] at ne
    exact (mem_erase_of_ne ne.2).mpr (freed.outstanding q used' ne.1)
  case word =>
    intro q ha ne i hi
    rw [mem_append, mem_singleton, not_or] at ne
    have pages : pgNo (q + 4 * i) ≠ pgNo p := by
      rw [pgNo_slot ha hi, pgNo_eq]
      have := page.aligned
      omega
    show (r'.fill p _).word _ = _
    rw [Ram.fill_word, if_neg pages]
    exact freed.word q ha ne.1 i hi

/-- What is needed to free the pages of a directory one after the other. -/
structure Releasable (r : Ram) (pd : Nat) (tables frames : Nat → Option Nat) (all : List Nat) :
    Prop where
  maps : Maps r pd tables frames
  nodup : all.Nodup
  page : ∀ p ∈ all, r.IsPage p ∧ p ∈ r.outstanding

namespace Releasable

theorem free (ready : Releasable r pd tables frames all) (freed : Freed r done r')
    (next : done ++ [p] <+: all) :
    Wp (pallocFreePage p) (fun _ r'' => Freed r (done ++ [p]) r'') r' := by
  have mem : p ∈ all := next.subset (by simp)
  exact freed.free (ready.page p mem).1 (ready.page p mem).2
    (not_mem_of_isPrefix ready.nodup next)

theorem freeEntry (ready : Releasable r pd tables frames all) (freed : Freed r done r')
    {j t : Nat} (lower : i < pdNo physBase) (is : tables i = some t) (hi : j < 1024)
    (left : t ∉ done) (next : done ++ (frames (1024 * i + j)).toList <+: all) :
    Wp (freeEntry (t + 4 * j))
      (fun _ r'' => Freed r (done ++ (frames (1024 * i + j)).toList) r'') r' := by
  have number : (1024 * i + j) / 1024 = i ∧ (1024 * i + j) % 1024 = j := by omega
  have user : 1024 * i + j < userPages := by
    rw [pdNo_eq] at lower
    unfold physBase at lower
    unfold userPages
    omega
  have entry := ready.maps.entry _ user t (by rw [number.1, is])
  have ha := (ready.maps.table i t is).2.1.aligned
  rw [number.2, ← freed.word t ha left j hi] at entry
  simp only [Userprog.freeEntry, wp_bind, wp_load]
  cases mapped : frames (1024 * i + j) with
  | none =>
    rw [mapped] at entry
    have absent : r'.word (t + 4 * j) &&& pteP = 0 := entry
    simpa [absent] using freed
  | some kpage =>
    rw [mapped] at entry next
    obtain ⟨present, address⟩ := entry
    have hp := (ready.maps.frame _ kpage mapped).2.1
    simp only [present, ne_eq, not_false_eq_true, if_true, wp_bind, pteGetPage, address,
      hp.wp_ptov ready.maps.small]
    exact ready.free freed next

theorem freeTable (ready : Releasable r pd tables frames all) (freed : Freed r done r')
    (lower : i < pdNo physBase) (left : pd ∉ done)
    (next : done ++ pagesOf tables frames i <+: all) :
    Wp (freeTable (pd + 4 * i)) (fun _ r'' => Freed r (done ++ pagesOf tables frames i) r'')
      r' := by
  have hi : i < 1024 := by
    rw [pdNo_eq] at lower
    unfold physBase at lower
    omega
  have pde := ready.maps.pde i hi
  rw [← freed.word pd ready.maps.directory.aligned left i hi] at pde
  simp only [Userprog.freeTable, wp_bind, wp_load]
  unfold pagesOf at next ⊢
  cases is : tables i with
  | none =>
    rw [is, Option.elim_none] at pde
    simpa [pde] using freed
  | some t =>
    rw [is, Option.elim_some] at pde next
    have hp := (ready.maps.table i t is).2.1
    have present := pdeValue_present t
    simp only [pde, present, ne_eq, not_false_eq_true, if_true, wp_bind,
      hp.wp_pdeGetPt ready.maps.small, Option.elim_some]
    have whole : done ++ framesOf frames i 1024 ++ [t] <+: all := by rwa [append_assoc]
    have was : ∀ j ≤ 1024, done ++ framesOf frames i j <+: done ++ framesOf frames i 1024 :=
      fun j le => (prefix_append_right_inj done).mpr (framesOf_isPrefix le)
    have later := not_mem_of_isPrefix ready.nodup whole
    have loop : Wp (upto (fun j _ => Userprog.freeEntry (t + 4 * j)) 1024 ())
        (fun _ r'' => Freed r (done ++ framesOf frames i 1024) r'') r' := by
      apply Wp.upto (I := fun j _ r'' => Freed r (done ++ framesOf frames i j) r'')
      · simpa [framesOf] using freed
      · intro j inside' _ r'' freed'
        have upto := (was (j + 1) inside').trans
          ((prefix_append _ [t]).trans whole)
        rw [framesOf_succ, ← append_assoc] at upto ⊢
        apply ready.freeEntry freed' lower is inside' _ upto
        exact fun mem => later ((was j (by omega)).subset mem)
    apply loop.mono
    intro _ r'' freed'
    rw [← append_assoc]
    exact ready.free freed' whole

end Releasable

/-- Every frame, every page table of the user half and the directory are freed. -/
theorem Maps.wp_pagedirDestroy (hm : Maps r pd tables frames) (own : pd ≠ r.initPageDir)
    (owned : Owned r pd tables frames) :
    Wp (pagedirDestroy (some pd)) (fun _ r' => Freed r (pagesIn pd tables frames) r') r := by
  have nodup := pagesIn_nodup hm owned
  have ready : Releasable r pd tables frames (pagesIn pd tables frames) := by
    refine ⟨hm, nodup, ?_⟩
    intro p mem
    rcases (mem_pagesIn hm).mp mem with ⟨u, mapped⟩ | ⟨i, _, is⟩ | rfl
    · exact ⟨(hm.frame u p mapped).2.1, owned.used u p mapped⟩
    · exact ⟨(hm.table i p is).2.1, (hm.table i p is).2.2.1⟩
    · exact ⟨hm.directory, hm.used⟩
  have whole : pagesBelow tables frames (pdNo physBase) ++ [pd] <+: pagesIn pd tables frames :=
    prefix_rfl
  have later := not_mem_of_isPrefix nodup whole
  simp only [pagedirDestroy, wp_bind, wp_get, wp_assert]
  refine ⟨own, ?_⟩
  have loop : Wp (upto (fun i _ => Userprog.freeTable (pd + 4 * i)) (pdNo physBase) ())
      (fun _ r' => Freed r (pagesBelow tables frames (pdNo physBase)) r') r := by
    apply Wp.upto (I := fun i _ r' => Freed r (pagesBelow tables frames i) r')
    · exact .none
    · intro i lower _ r' freed
      have upto : pagesBelow tables frames (i + 1) <+: pagesIn pd tables frames :=
        (pagesBelow_isPrefix lower).trans (prefix_append _ _)
      rw [pagesBelow_succ] at upto ⊢
      apply ready.freeTable freed lower _ upto
      exact fun mem => later ((pagesBelow_isPrefix (by omega)).subset mem)
  apply loop.mono
  intro _ r' freed
  exact ready.free freed whole

end Pintos.Userprog
