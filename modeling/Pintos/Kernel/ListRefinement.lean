import Pintos.Kernel.List

/-!
# Lists as sequences

A list that is well formed stands for a sequence of elements. Every operation of `list.c` does to
the sequence what it is for, and to no other element anything.
-/

namespace Pintos.LinkedList

open Prog List

variable {P : Type} {Q : P → Heap P → Prop} {ds es : List P}

/-- All cells of a list with these elements. -/
def CList.cells (list : CList P) (xs : List P) : List P := list.head :: (xs ++ [list.tail])

/-- The list is well formed and has these elements. -/
@[grind cases] structure Reps (h : Heap P) (list : CList P) (xs : List P) : Prop where
  front : h.prev list.head = none
  back : h.next list.tail = none
  chain : (list.cells xs).IsChain h.Linked
  once : (list.cells xs).Nodup

variable {h h' : Heap P} {list ne : CList P} {xs ys zs range area L R l r : List P}
  {p q u b elem first last : P}

theorem CList.mem_cells : p ∈ list.cells xs ↔ p = list.head ∨ p ∈ xs ∨ p = list.tail := by
  simp [CList.cells]

/-- Where a list is cut between two of its cells. -/
@[grind cases] structure Cut (list : CList P) (ys zs L : List P) (p b : P) (R : List P) : Prop where
  left : list.head :: ys = L ++ [p]
  right : zs ++ [list.tail] = b :: R

section
variable (cut : Cut list ys zs L p b R)
include cut

theorem Cut.cells : list.cells (ys ++ zs) = L ++ p :: b :: R := by
  rw [CList.cells, append_assoc, cut.right, ← cons_append, cut.left]
  simp

theorem Cut.head_mem : list.head ∈ L ++ [p] := by
  rw [← cut.left]
  exact (.head _)

theorem Cut.tail_mem : list.tail ∈ b :: R := by
  rw [← cut.right]
  simp

theorem Cut.with_range : list.cells (ys ++ range ++ zs) = (L ++ [p]) ++ (range ++ b :: R) := by
  rw [CList.cells, append_assoc, cut.right, append_assoc, ← cons_append, cut.left]

theorem Cut.eq_last : p = ys.getLastD list.head := by
  have last := congrArg getLast? cut.left
  simpa [getLast?_cons] using last.symm

end

theorem exists_cut (list : CList P) (ys zs : List P) :
    ∃ L p R, Cut list ys zs L p (zs.headD list.tail) R := by
  have left : ∃ L p, list.head :: ys = L ++ [p] := by
    obtain none | ⟨L, p, eq⟩ := (list.head :: ys).eq_nil_or_concat
    · cases none
    · exact ⟨L, p, by rw [eq, concat_eq_append]⟩
  obtain ⟨L, p, left⟩ := left
  cases zs with
  | nil => exact ⟨L, p, [], left, rfl⟩
  | cons z zs => exact ⟨L, p, zs ++ [list.tail], left, rfl⟩

namespace Reps

theorem linked (hr : Reps h list (ys ++ zs)) (cut : Cut list ys zs L p b R) :
    (L ++ [p]).IsChain h.Linked ∧ h.Linked p b ∧ (b :: R).IsChain h.Linked := by
  have chain := hr.chain
  rw [cut.cells] at chain
  exact isChain_append_cons_cons.mp chain

/-- Only the cells of the list matter. -/
theorem agree (hr : Reps h list xs)
    (agree : ∀ p ∈ list.cells xs, h'.prev p = h.prev p ∧ h'.next p = h.next p) :
    Reps h' list xs where
  front := (agree _ (CList.mem_cells.mpr (.inl rfl))).1.trans hr.front
  back := (agree _ (CList.mem_cells.mpr (.inr (.inr rfl)))).2.trans hr.back
  chain := Heap.chain_agree hr.chain agree
  once := hr.once

/-- Changes elsewhere do not matter. -/
theorem same (hr : Reps h list xs) (eq : h.Same h' area) (ne : ∀ p ∈ list.cells xs, p ∉ area) :
    Reps h' list xs :=
  hr.agree fun p hi => eq p (ne p hi)

theorem range_linked (hr : Reps h list (ys ++ range ++ zs)) (cut : Cut list ys zs L p b R)
    (starts : range = first :: r) (ends : range = l ++ [last]) :
    h.Linked p first ∧ h.Linked last b := by
  have chain := hr.chain
  rw [cut.with_range] at chain
  obtain ⟨_, rest, was⟩ := isChain_append.mp chain
  obtain ⟨_, _, behind⟩ := isChain_append.mp rest
  exact ⟨was p (by simp) first (by simp [starts]), behind last (by simp [ends]) b (by simp)⟩

theorem range_apart (hr : Reps h list (ys ++ range ++ zs)) (cut : Cut list ys zs L p b R) :
    ∀ x ∈ range, x ∉ list.cells (ys ++ zs) := by
  have once := hr.once
  rw [cut.with_range] at once
  obtain ⟨_, rest, was⟩ := nodup_append.mp once
  obtain ⟨_, _, behind⟩ := nodup_append.mp rest
  intro x hx hi
  rw [cut.cells, append_cons] at hi
  obtain left | right := mem_append.mp hi
  · exact was x left x (mem_append_left _ hx) rfl
  · exact behind x hx x right rfl

theorem interior (hr : Reps h list xs) (mem : p ∈ xs) :
    (h.prev p).isSome = true ∧ (h.next p).isSome = true := by
  obtain ⟨ys, zs, rfl⟩ := append_of_mem mem
  obtain ⟨L, a, R, cut⟩ := exists_cut list ys zs
  rw [append_cons] at hr
  obtain ⟨was, behind⟩ := hr.range_linked cut rfl (nil_append [p]).symm
  rw [was.2, behind.1]
  exact ⟨rfl, rfl⟩

/-- The cell before a cut is not the tail, and that behind it not the head. -/
theorem before_some (hr : Reps h list (ys ++ zs)) :
    (h.prev (zs.headD list.tail)).isSome = true := by
  obtain ⟨L, a, R, cut⟩ := exists_cut list ys zs
  rw [(hr.linked cut).2.1.2]
  rfl

theorem next_head (hr : Reps h list xs) : h.next list.head = some (xs.headD list.tail) := by
  have chain := hr.chain
  cases xs with
  | nil => exact (isChain_cons_cons.mp chain).1.1
  | cons x xs => exact (isChain_cons_cons.mp chain).1.1

theorem next_elem (hr : Reps h list (ys ++ elem :: zs)) :
    h.next elem = some (zs.headD list.tail) := by
  obtain ⟨L, p, R, cut⟩ := exists_cut list ys zs
  rw [append_cons] at hr
  exact (hr.range_linked cut rfl (nil_append [elem]).symm).2.1

theorem prev_elem (hr : Reps h list (ys ++ elem :: zs)) :
    h.prev elem = some (ys.getLastD list.head) := by
  obtain ⟨L, p, R, cut⟩ := exists_cut list ys zs
  rw [append_cons] at hr
  rw [← cut.eq_last]
  exact (hr.range_linked cut rfl (nil_append [elem]).symm).1.2

theorem prev_tail (hr : Reps h list xs) : h.prev list.tail = some (xs.getLastD list.head) := by
  obtain ⟨L, p, R, cut⟩ := exists_cut list xs []
  rw [← append_nil xs] at hr
  rw [← cut.eq_last]
  exact (hr.linked cut).2.1.2

theorem elem_ne_tail (hr : Reps h list xs) (mem : elem ∈ xs) : elem ≠ list.tail := by
  rintro rfl
  have once := (nodup_cons.mp hr.once).2
  exact (nodup_append.mp once).2.2 _ mem _ (mem_singleton_self _) rfl

theorem elem_ne_head (hr : Reps h list xs) (mem : elem ∈ xs) : elem ≠ list.head := by
  rintro rfl
  exact (nodup_cons.mp hr.once).1 (mem_append_left _ mem)

theorem headD_eq_tail (hr : Reps h list xs) : xs.headD list.tail = list.tail ↔ xs = [] := by
  cases xs with
  | nil => exact ⟨fun _ => rfl, fun _ => rfl⟩
  | cons x xs => exact ⟨fun eq => absurd eq (hr.elem_ne_tail (.head _)), nofun⟩

end Reps

theorem wp_listBegin (hr : Reps h list xs) :
    Wp (listBegin list) Q h ↔ Q (xs.headD list.tail) h := by
  simp only [listBegin, wp_bind, wp_getNext, hr.next_head, wp_deref]

theorem wp_listNext (hr : Reps h list (ys ++ elem :: zs)) :
    Wp (listNext elem) Q h ↔ Q (zs.headD list.tail) h := by
  have inner := hr.interior (p := elem) (by simp)
  simp [listNext, hr.next_elem, inner]

theorem wp_listPrev (hr : Reps h list (ys ++ elem :: zs)) :
    Wp (listPrev elem) Q h ↔ Q (ys.getLastD list.head) h := by
  have inner := hr.interior (p := elem) (by simp)
  simp [listPrev, hr.prev_elem, inner]

variable [DecidableEq P]

theorem Cut.link_same (cut : Cut list ys zs L p b R) :
    h.Same (h.link p b) (list.cells (ys ++ range ++ zs)) := by
  rw [cut.with_range]
  apply Heap.link_same <;> simp

namespace Reps

/-- The cells of `range` leave the list. -/
theorem removeRange (hr : Reps h list (ys ++ range ++ zs)) (cut : Cut list ys zs L p b R) :
    Reps (h.link p b) list (ys ++ zs) ∧ range.IsChain (h.link p b).Linked := by
  have chain := hr.chain
  have once := hr.once
  rw [cut.with_range] at chain once
  obtain ⟨left, rest, _⟩ := isChain_append.mp chain
  obtain ⟨middle, right, _⟩ := isChain_append.mp rest
  have ne := (nodup_append.mp once).2.2
  have apart' := (nodup_append.mp (nodup_append.mp once).2.1).2.2
  have fewer : (L ++ p :: b :: R).Nodup := by grind
  refine ⟨⟨?_, ?_, ?_, ?_⟩, Heap.chain_link middle ?_ ?_⟩
  · rw [Heap.link_prev, if_neg]
    · exact hr.front
    · exact ne _ cut.head_mem _ (by simp)
  · rw [Heap.link_next, if_neg]
    · exact hr.back
    · exact fun eq => ne p (by simp) _ (mem_append_right _ cut.tail_mem) eq.symm
  · rw [cut.cells]
    exact Heap.chain_join left right fewer
  · rw [cut.cells]
    exact fewer
  · exact fun hi => ne p (by simp) p (by simp [dropLast_subset _ hi]) rfl
  · exact fun hi => apart' b (mem_of_mem_tail hi) b (by simp) rfl

/-- The cells of a row come into the list. -/
theorem insertRange (hr : Reps h list (ys ++ zs)) (cut : Cut list ys zs L p b R)
    (chain : range.IsChain h.Linked) (once : range.Nodup)
    (ne : ∀ x ∈ range, x ∉ list.cells (ys ++ zs)) (starts : range = first :: r)
    (ends : range = l ++ [last]) :
    Reps ((h.link p first).link last b) list (ys ++ range ++ zs) := by
  obtain ⟨left, _, right⟩ := hr.linked cut
  have cells : (L ++ [p]) ++ b :: R = list.cells (ys ++ zs) := by rw [cut.cells]; simp
  have whole : ((L ++ [p]) ++ (range ++ b :: R)).Nodup := by
    rw [(perm_append_comm_assoc ..).nodup_iff, nodup_append, cells]
    refine ⟨once, hr.once, ?_⟩
    rintro x hx y hy rfl
    exact ne x hx hy
  obtain ⟨_, once', hf⟩ := nodup_append.mp whole
  obtain ⟨_, _, fresh'⟩ := nodup_append.mp once'
  have firstIn : first ∈ range := by rw [starts]; exact (.head _)
  have lastIn : last ∈ range := by rw [ends]; simp
  have pIn : p ∈ L ++ [p] := by simp
  have headNe : ∀ x ∈ range ++ b :: R, list.head ≠ x := hf _ cut.head_mem
  have tailNe : ∀ x ∈ (L ++ [p]) ++ range, list.tail ≠ x := by
    rintro x hx rfl
    obtain hi | hi := mem_append.mp hx
    · exact hf _ hi _ (mem_append_right _ cut.tail_mem) rfl
    · exact fresh' _ hi _ cut.tail_mem rfl
  -- the row is put behind `p`, and `b` behind the row
  have joined : ((L ++ [p]) ++ range).IsChain (h.link p first).Linked := by
    have part : ((L ++ [p]) ++ range).Nodup := by
      rw [← append_assoc] at whole
      exact (nodup_append.mp whole).1
    rw [starts, ← append_cons] at part ⊢
    rw [starts] at chain
    exact Heap.chain_join left chain part
  have right' : (b :: R).IsChain (h.link p first).Linked := by
    refine Heap.chain_link right (fun hi => ?_) fun hi => ?_
    · exact hf p pIn p (mem_append_right _ (dropLast_subset _ hi)) rfl
    · exact fresh' first firstIn first (mem_of_mem_tail hi) rfl
  refine ⟨?_, ?_, ?_, ?_⟩
  · rw [Heap.link_prev, Heap.link_prev, if_neg (headNe b (by simp)),
      if_neg (headNe first (mem_append_left _ firstIn))]
    exact hr.front
  · rw [Heap.link_next, Heap.link_next, if_neg (tailNe last (mem_append_right _ lastIn)),
      if_neg (tailNe p (mem_append_left _ pIn))]
    exact hr.back
  · rw [cut.with_range]
    rw [ends, ← append_assoc] at joined
    rw [ends, append_assoc l, ← append_assoc] at whole ⊢
    exact Heap.chain_join joined right' whole
  · rw [cut.with_range]
    exact whole

end Reps

/-! ### Operations without loops -/

theorem wp_listInsert (hr : Reps h list (ys ++ zs)) (hf : elem ∉ list.cells (ys ++ zs)) :
    Wp (listInsert (zs.headD list.tail) elem) (fun _ h' => Reps h' list (ys ++ elem :: zs) ∧
      h.Same h' (elem :: list.cells (ys ++ zs))) h := by
  obtain ⟨L, p, R, cut⟩ := exists_cut list ys zs
  generalize zs.headD list.tail = b at cut ⊢
  obtain ⟨_, hl, _⟩ := hr.linked cut
  have pIn : p ∈ list.cells (ys ++ zs) := by rw [cut.cells]; simp
  have bIn : b ∈ list.cells (ys ++ zs) := by rw [cut.cells]; simp
  have pNe : p ≠ elem := by rintro rfl; exact hf pIn
  have bNe : b ≠ elem := by rintro rfl; exact hf bIn
  have after : (((h.setPrev elem (some p)).setNext elem (some b)).setNext p (some elem)).setPrev b
      (some elem) = (h.link p elem).link elem b := by
    ext1
    · rfl
    · exact Function.update_comm pNe.symm ..
  have reps' := hr.insertRange cut (isChain_singleton elem) (nodup_singleton elem)
    (by simpa using hf) rfl (nil_append [elem]).symm
  rw [append_assoc] at reps'
  have prevB : h.prev b = some p := hl.2
  have kind : (h.next b).isSome = true ∨ h.next b = none := by cases h.next b <;> simp
  have eq : h.Same ((h.link p elem).link elem b) (elem :: list.cells (ys ++ zs)) := by
    refine (Heap.link_same ?_ ?_).trans (Heap.link_same ?_ ?_)
    all_goals simp [pIn, bIn]
  simp only [listInsert, wp_bind, wp_isInterior, wp_isTail, wp_assert, wp_getPrev, wp_setPrev,
    wp_setNext, Heap.setNext_prev, Heap.setPrev_prev, if_neg bNe, prevB, wp_deref, after]
  exact ⟨by simpa using kind, reps', eq⟩

theorem wp_listRemove (hr : Reps h list (ys ++ elem :: zs)) :
    Wp (listRemove elem) (fun r h' => r = zs.headD list.tail ∧ Reps h' list (ys ++ zs) ∧
      h.Same h' (list.cells (ys ++ zs))) h := by
  obtain ⟨L, p, R, cut⟩ := exists_cut list ys zs
  generalize zs.headD list.tail = b at cut ⊢
  rw [append_cons] at hr
  obtain ⟨was, behind⟩ := hr.range_linked cut rfl (nil_append [elem]).symm
  have prevE : h.prev elem = some p := was.2
  have nextE : h.next elem = some b := behind.1
  have pIn : p ∈ list.cells (ys ++ zs) := by rw [cut.cells]; simp
  have bIn : b ∈ list.cells (ys ++ zs) := by rw [cut.cells]; simp
  have pNe : elem ≠ p := by
    rintro rfl
    exact hr.range_apart cut _ (mem_singleton_self _) pIn
  have bNe : elem ≠ b := by
    rintro rfl
    exact hr.range_apart cut _ (mem_singleton_self _) bIn
  simp only [listRemove, wp_bind, wp_isInterior, wp_assert, wp_getPrev, wp_getNext, wp_setPrev,
    wp_setNext, Heap.setNext_prev, Heap.setNext_next, Heap.setPrev_next, prevE, nextE, wp_deref,
    if_neg pNe, true_and]
  exact ⟨rfl, (hr.removeRange cut).1, Heap.link_same pIn bIn⟩

/-- The links that `list_splice` makes. -/
theorem wp_spliceLinks (was : h.Linked p first) (behind : h.Linked last q)
    (inner : (h.next first).isSome = true ∧ (h.prev last).isSome = true)
    (target : (h.link p q).prev b = some u) (known : (h.prev b).isSome = true) (moves : first ≠ q)
    (outside : b ≠ first) (ne : u ≠ last) :
    Wp (listSplice b first q) (fun _ h' => h' = ((h.link p q).link u first).link last b) h := by
  have kind : (h.next b).isSome = true ∨ h.next b = none := by cases h.next b <;> simp
  have kind' : (h.next q).isSome = true ∨ h.next q = none := by cases h.next q <;> simp
  have after : ((((h.link p q).setPrev first (.some u)).setNext last (.some b)).setNext u
      (.some first)).setPrev b (.some last) = ((h.link p q).link u first).link last b := by
    ext1
    · rfl
    · exact Function.update_comm ne.symm ..
  have removed : (h.setNext p (.some q)).setPrev q (.some p) = h.link p q := rfl
  rw [Heap.link_prev] at target
  simp only [listSplice, listPrev, wp_bind, wp_isInterior, wp_isTail, wp_assert, wp_getPrev,
    wp_getNext,
    wp_setPrev, wp_setNext, Heap.setNext_prev, Heap.setNext_next, Heap.setPrev_prev, if_neg moves,
    if_neg outside, was.2, behind.1, behind.2, wp_deref, ite_self, removed, target, after]
  simp [kind, kind', inner, known]

/-- A row of one list is put before a cell of `dest`, which is that list without the row or
another one. -/
theorem wp_spliceInto {dest : CList P} {L' R' : List P} (hr : Reps h list (ys ++ range ++ zs))
    (cut : Cut list ys zs L p q R) (starts : range = first :: r) (ends : range = l ++ [last])
    (target : Reps (h.link p q) dest (ds ++ es)) (cut' : Cut dest ds es L' u b R')
    (ne : ∀ x ∈ range, x ∉ dest.cells (ds ++ es)) :
    Wp (listSplice b first q) (fun _ h' => Reps h' dest (ds ++ range ++ es) ∧
      h.Same (h.link p q) (list.cells (ys ++ range ++ zs)) ∧
      (h.link p q).Same h' (range ++ dest.cells (ds ++ es))) h := by
  obtain ⟨was, behind⟩ := hr.range_linked cut starts ends
  have hl := (target.linked cut').2.1
  have firstIn : first ∈ range := by rw [starts]; exact (.head _)
  have lastIn : last ∈ range := by rw [ends]; simp
  have bIn : b ∈ dest.cells (ds ++ es) := by rw [cut'.cells]; simp
  have uIn : u ∈ dest.cells (ds ++ es) := by rw [cut'.cells]; simp
  have qIn : q ∈ list.cells (ys ++ zs) := by rw [cut.cells]; simp
  have once : range.Nodup := by
    have once := hr.once
    rw [cut.with_range] at once
    exact (nodup_append.mp (nodup_append.mp once).2.1).1
  have inner : (h.next first).isSome = true ∧ (h.prev last).isSome = true :=
    ⟨(hr.interior (by simp [firstIn])).2, (hr.interior (by simp [lastIn])).1⟩
  have known : (h.prev b).isSome = true := by
    have prevB : (h.link p q).prev b = some u := hl.2
    rw [Heap.link_prev] at prevB
    split_ifs at prevB with eq
    · rw [eq, behind.2]; rfl
    · rw [prevB]; rfl
  refine (wp_spliceLinks was behind inner hl.2 known ?_ ?_ ?_).mono ?_
  · rintro rfl
    exact hr.range_apart cut _ firstIn qIn
  · rintro rfl
    exact ne _ firstIn bIn
  · rintro rfl
    exact ne _ lastIn uIn
  · rintro _ h' rfl
    refine ⟨target.insertRange cut' (hr.removeRange cut).2 once ne starts ends, ?_, ?_⟩
    · exact cut.link_same
    · refine (Heap.link_same ?_ ?_).trans (Heap.link_same ?_ ?_)
      all_goals simp [firstIn, lastIn, bIn, uIn]

/-- Nothing moves if the range is empty. -/
theorem wp_spliceNothing (known : (h.prev b).isSome = true) :
    Wp (listSplice b first first) (fun _ h' => h' = h) h := by
  have kind : (h.next b).isSome = true ∨ h.next b = none := by cases h.next b <;> simp
  simp [listSplice, known, kind]

theorem wp_listSplice_within (hr : Reps h list (ys ++ range ++ zs))
    (rest : ds ++ es = ys ++ zs) :
    Wp (listSplice (es.headD list.tail) ((range ++ zs).headD list.tail) (zs.headD list.tail))
      (fun _ h' => Reps h' list (ds ++ range ++ es) ∧ h.Same h' (list.cells (ys ++ range ++ zs)))
      h := by
  obtain none | ⟨l, last, ends⟩ := range.eq_nil_or_concat
  · subst none
    rw [append_nil, ← rest] at hr
    refine (wp_spliceNothing hr.before_some).mono ?_
    rintro _ h' rfl
    rw [append_nil]
    exact ⟨hr, .refl _ _⟩
  · rw [concat_eq_append] at ends
    obtain ⟨first, r, starts⟩ := exists_cons_of_ne_nil (l := range) (by simp [ends])
    obtain ⟨L, p, R, cut⟩ := exists_cut list ys zs
    obtain ⟨L', u, R', cut'⟩ := exists_cut list ds es
    have target := (hr.removeRange cut).1
    have ne := hr.range_apart cut
    rw [← rest] at target ne
    have begins : (range ++ zs).headD list.tail = first := by rw [starts]; rfl
    rw [begins]
    refine (wp_spliceInto hr cut starts ends target cut' ne).mono ?_
    rintro _ h' ⟨reps', eq, same'⟩
    refine ⟨reps', eq.trans (same'.mono ?_)⟩
    rw [rest, cut.with_range, cut.cells]
    intro x
    simp only [mem_append, mem_cons, not_mem_nil]
    tauto

theorem wp_listSplice_across (hr : Reps h list (ys ++ range ++ zs)) (dest : Reps h ne (ds ++ es))
    (ha : ∀ x ∈ list.cells (ys ++ range ++ zs), x ∉ ne.cells (ds ++ es)) :
    Wp (listSplice (es.headD ne.tail) ((range ++ zs).headD list.tail) (zs.headD list.tail))
      (fun _ h' => Reps h' list (ys ++ zs) ∧ Reps h' ne (ds ++ range ++ es) ∧
        h.Same h' (list.cells (ys ++ range ++ zs) ++ ne.cells (ds ++ es))) h := by
  obtain none | ⟨l, last, ends⟩ := range.eq_nil_or_concat
  · subst none
    rw [append_nil] at hr ⊢
    refine (wp_spliceNothing dest.before_some).mono ?_
    rintro _ h' rfl
    rw [append_nil]
    exact ⟨hr, dest, .refl _ _⟩
  · rw [concat_eq_append] at ends
    obtain ⟨first, r, starts⟩ := exists_cons_of_ne_nil (l := range) (by simp [ends])
    obtain ⟨L, p, R, cut⟩ := exists_cut list ys zs
    obtain ⟨L', u, R', cut'⟩ := exists_cut ne ds es
    have begins : (range ++ zs).headD list.tail = first := by rw [starts]; rfl
    have removed : h.Same (h.link p (zs.headD list.tail)) (list.cells (ys ++ range ++ zs)) :=
      cut.link_same
    have hi : ∀ x ∈ range, x ∈ list.cells (ys ++ range ++ zs) :=
      fun x hx => CList.mem_cells.mpr (.inr (.inl (by simp [hx])))
    have fewer : ∀ x ∈ list.cells (ys ++ zs), x ∈ list.cells (ys ++ range ++ zs) := by
      intro x
      simp only [CList.mem_cells, mem_append]
      tauto
    rw [begins]
    refine (wp_spliceInto hr cut starts ends
      (dest.same removed fun x hx old => ha x old hx) cut'
      fun x hx => ha x (hi x hx)).mono ?_
    rintro _ h' ⟨reps', eq, same'⟩
    refine ⟨(hr.removeRange cut).1.same same' fun x hx => ?_, reps', ?_⟩
    · rw [mem_append, not_or]
      exact ⟨fun old => hr.range_apart cut x old hx, ha x (fewer x hx)⟩
    · refine (eq.mono (subset_append_left ..)).trans (same'.mono ?_)
      exact append_subset.mpr ⟨fun x hx => mem_append_left _ (hi x hx),
        subset_append_right ..⟩

/-! ### The ends of a list -/

theorem wp_listInit (ne : list.head ≠ list.tail) :
    Wp (listInit list) (fun _ h' => Reps h' list [] ∧ h.Same h' (list.cells [])) h := by
  simp only [listInit, wp_bind, wp_setPrev, wp_setNext]
  constructor
  · constructor
    case front => simp [ne]
    case back => simp
    case chain => simp [CList.cells, Heap.Linked, ne]
    case once => simpa [CList.cells] using ne
  · intro p out
    have out : p ≠ list.head ∧ p ≠ list.tail := by simpa [CList.cells] using out
    simp [out]

theorem wp_listEmpty (hr : Reps h list xs) {Q : Bool → Heap P → Prop} :
    Wp (listEmpty list) Q h ↔ Q (decide (xs = [])) h := by
  simp only [listEmpty, wp_bind, wp_listBegin hr, wp_pure, hr.headD_eq_tail]

theorem wp_listPushFront (hr : Reps h list xs) (hf : elem ∉ list.cells xs) :
    Wp (listPushFront list elem) (fun _ h' => Reps h' list (elem :: xs) ∧
      h.Same h' (elem :: list.cells xs)) h := by
  have front : Reps h list ([] ++ xs) := hr
  rw [listPushFront, wp_bind, wp_listBegin hr]
  exact wp_listInsert front hf

theorem wp_listPushBack (hr : Reps h list xs) (hf : elem ∉ list.cells xs) :
    Wp (listPushBack list elem) (fun _ h' => Reps h' list (xs ++ [elem]) ∧
      h.Same h' (elem :: list.cells xs)) h := by
  rw [← append_nil xs] at hr hf ⊢
  have insert := wp_listInsert hr hf
  rw [append_nil] at insert ⊢
  exact insert

theorem wp_listPopFront (hr : Reps h list (elem :: xs)) :
    Wp (listPopFront list) (fun r h' => r = elem ∧ Reps h' list xs ∧ h.Same h' (list.cells xs))
      h := by
  simp only [listPopFront, listFront, wp_bind, wp_listEmpty hr, wp_assert, wp_getNext, hr.next_head,
    wp_deref, wp_pure, headD_cons]
  have front : Reps h list ([] ++ elem :: xs) := hr
  exact ⟨by simp, (wp_listRemove front).mono fun _ _ res => ⟨trivial, res.2⟩⟩

theorem wp_listPopBack (hr : Reps h list (xs ++ [elem])) :
    Wp (listPopBack list) (fun r h' => r = elem ∧ Reps h' list xs ∧ h.Same h' (list.cells xs))
      h := by
  simp only [listPopBack, listBack, wp_bind, wp_listEmpty hr, wp_assert, wp_getPrev, hr.prev_tail,
    wp_deref, wp_pure, getLastD_concat]
  refine ⟨by simp, (wp_listRemove hr).mono fun _ _ res => ?_⟩
  rw [append_nil] at res
  exact ⟨trivial, res.2⟩

end Pintos.LinkedList
