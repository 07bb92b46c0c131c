import Pintos.Kernel.ListRefinement
import Pintos.Lib.Ordered

/-!
# Loops over lists

Traversal, ordered insertion, reversal and the removal of duplicates.
-/

namespace Pintos.LinkedList

open Prog Ordered List

variable {P : Type}

/-- The elements kept behind `elem`, and those that are left out. -/
def uniqueFrom (less : P → P → Bool) (elem : P) : List P → List P × List P
  | [] => ([], [])
  | next :: rest =>
    if !less elem next && !less next elem then
      let (kept, out) := uniqueFrom less elem rest
      (kept, next :: out)
    else
      let (kept, out) := uniqueFrom less next rest
      (next :: kept, out)

/-- The first of each row of equal elements, and the others. -/
def unique (less : P → P → Bool) : List P → List P × List P
  | [] => ([], [])
  | elem :: rest =>
    let (kept, out) := uniqueFrom less elem rest
    (elem :: kept, out)

variable [DecidableEq P] {h h' : Heap P} {list : CList P} {xs ys zs area : List P} {elem : P}
  {lt : P → P → Bool} {rounds : Nat}

/-! ### Traversal -/

/-- A loop stands at a position of the list, and has the elements before it behind it. -/
structure At (xs : List P) (list : CList P) (n : Nat) (e : P) (ys zs : List P) : Prop where
  split : xs = ys ++ zs
  here : e = zs.headD list.tail
  left : n = zs.length

theorem wp_forward (hr : Reps h list xs) (he : xs.length < rounds) :
    Wp (forward rounds list) (fun r h' => r = xs ∧ h' = h) h := by
  unfold forward
  rw [wp_bind, wp_listBegin hr]
  refine Wp.loop (I := fun n s h' => ∃ zs, At xs list n s.1 s.2 zs ∧ h' = h) ?_
    ⟨xs, ⟨rfl, rfl, rfl⟩, rfl⟩ he
  intro n s h' now
  obtain ⟨e, seen⟩ := s
  obtain ⟨zs, ⟨split, hp, left⟩, rfl⟩ := now
  dsimp only at split hp ⊢
  cases zs with
  | nil =>
    obtain rfl : e = list.tail := hp
    rw [if_pos rfl, wp_pure]
    exact ⟨by rw [split, append_nil], rfl⟩
  | cons z zs =>
    obtain rfl : e = z := hp
    rw [split] at hr
    rw [if_neg (hr.elem_ne_tail (by simp)), wp_bind, wp_listNext hr, wp_pure]
    exact ⟨zs.length, by simp [left], zs, ⟨by rw [split, append_assoc]; rfl, rfl, rfl⟩, rfl⟩

theorem wp_backward (hr : Reps h list xs) (he : xs.length < rounds) :
    Wp (backward rounds list) (fun r h' => r = xs.reverse ∧ h' = h) h := by
  unfold backward
  rw [wp_bind, wp_getPrev, wp_bind, hr.prev_tail, wp_deref]
  refine Wp.loop
    (I := fun n s h' => ∃ ys zs, xs = ys ++ zs ∧ s = (ys.getLastD list.head, zs.reverse) ∧
    n = ys.length ∧ h' = h) ?_ ⟨xs, [], (append_nil xs).symm, rfl, rfl, rfl⟩ he
  intro n s h' now
  obtain ⟨ys, zs, split, rfl, left, rfl⟩ := now
  dsimp only
  obtain none | ⟨ys, y, more⟩ := ys.eq_nil_or_concat
  · subst none
    rw [getLastD_nil, if_pos rfl, wp_pure]
    exact ⟨by rw [split]; rfl, rfl⟩
  · rw [concat_eq_append] at more
    subst more
    rw [append_assoc] at split
    have reps' := hr
    rw [split] at reps'
    rw [getLastD_concat, if_neg (reps'.elem_ne_head (by simp)), wp_bind, wp_listPrev reps', wp_pure]
    exact ⟨ys.length, by simp [left], ys, y :: zs, split, by simp, rfl, rfl⟩

/-! ### Insertion in order -/

omit [DecidableEq P] in
/-- The place of an element is behind those it is not less than. -/
theorem insertOrdered_append (passed : ∀ y ∈ ys, lt elem y = false)
    (stops : ∀ z ∈ zs.head?, lt elem z = true) :
    insertOrdered (fun a b => lt a b = true) elem (ys ++ zs) = ys ++ elem :: zs := by
  unfold insertOrdered
  induction ys with
  | nil =>
    cases zs with
    | nil => rfl
    | cons z zs => exact if_pos (stops z rfl)
  | cons y ys ih => grind

theorem wp_listInsertOrdered (hr : Reps h list xs) (hf : elem ∉ list.cells xs)
    (he : xs.length < rounds) :
    Wp (listInsertOrdered rounds list elem lt) (fun _ h' =>
      Reps h' list (insertOrdered (fun a b => lt a b = true) elem xs) ∧
      h.Same h' (elem :: list.cells xs)) h := by
  rw [listInsertOrdered, wp_bind, wp_listBegin hr, wp_bind]
  refine Wp.loop (I := fun n e h' => h' = h ∧ ∃ ys zs, At xs list n e ys zs ∧
    ∀ y ∈ ys, lt elem y = false) ?_ ⟨rfl, [], xs, ⟨rfl, rfl, rfl⟩, nofun⟩ he
  rintro n e h' ⟨rfl, ys, zs, ⟨split, hp, left⟩, passed⟩
  have found : (∀ z ∈ zs.head?, lt elem z = true) → Wp (listInsert (zs.headD list.tail) elem)
    (fun _ h'' =>
      Reps h'' list (insertOrdered (fun a b => lt a b = true) elem xs) ∧
      h'.Same h'' (elem :: list.cells xs)) h' := by
    intro stops
    rw [split] at hr hf ⊢
    rw [insertOrdered_append passed stops]
    exact wp_listInsert hr hf
  cases zs with
  | nil =>
    obtain rfl : e = list.tail := hp
    rw [if_pos rfl, wp_pure]
    exact found nofun
  | cons z zs =>
    obtain rfl : e = z := hp
    have reps' := hr
    rw [split] at reps'
    rw [if_neg (reps'.elem_ne_tail (by simp))]
    split_ifs with stops
    · rw [wp_pure]
      exact found (by simpa using stops)
    · rw [wp_bind, wp_listNext reps', wp_pure]
      refine ⟨zs.length, by simp [left], rfl, ys ++ [e], zs, ⟨by simp [split], rfl, rfl⟩, ?_⟩
      intro y hy
      obtain old | new := mem_append.mp hy
      · exact passed y old
      · rw [mem_singleton.mp new]
        simpa using stops

/-! ### Reversal -/

/-- The links of the cells in `done` have changed places. -/
def mirror (h : Heap P) (done : List P) : Heap P where
  prev p := if p ∈ done then h.next p else h.prev p
  next p := if p ∈ done then h.prev p else h.next p

theorem mirror_chain (chain : xs.IsChain h.Linked) : xs.reverse.IsChain (mirror h xs).Linked := by
  rw [isChain_reverse]
  refine chain.imp_of_mem_imp fun a b ha hb hl => ?_
  simp only [Heap.Linked, mirror, if_pos ha, if_pos hb]
  exact ⟨hl.2, hl.1⟩

/-- What is left to do is to link the sentinels to the other ends. -/
theorem Reps.mirrored {first last : P} {l r : List P} (hr : Reps h list xs)
    (starts : xs = first :: r)
    (ends : xs = l ++ [last]) :
    Reps (((mirror h xs).link list.head last).link first list.tail) list xs.reverse := by
  have firstIn : first ∈ xs := by rw [starts]; exact (.head _)
  have lastIn : last ∈ xs := by rw [ends]; simp
  have head : list.head ∉ xs := fun mem => hr.elem_ne_head mem rfl
  have tail : list.tail ∉ xs := fun mem => hr.elem_ne_tail mem rfl
  have chain : xs.IsChain h.Linked :=
    ((isChain_append.mp (isChain_cons.mp hr.chain).2)).1
  have once : (list.cells xs.reverse).Nodup := by
    have perm : (list.cells xs.reverse).Perm (list.cells xs) :=
      ((reverse_perm xs).append_right _).cons _
    exact perm.nodup_iff.mpr hr.once
  have mirrored := mirror_chain chain
  have sentinels : list.head ≠ list.tail := by
    have once := (nodup_cons.mp hr.once).1
    simp only [mem_append, mem_singleton, not_or] at once
    exact once.2
  have fromLast : xs.reverse = last :: l.reverse := by rw [ends]; simp
  have toFirst : xs.reverse = r.reverse ++ [first] := by rw [starts]; simp
  refine ⟨?_, ?_, ?_, once⟩
  · rw [Heap.link_prev, Heap.link_prev, if_neg sentinels, if_neg (hr.elem_ne_head lastIn).symm]
    simp only [mirror, if_neg head]
    exact hr.front
  · rw [Heap.link_next, Heap.link_next, if_neg (hr.elem_ne_tail firstIn).symm,
      if_neg sentinels.symm]
    simp only [mirror, if_neg tail]
    exact hr.back
  · have left : (list.head :: xs.reverse).IsChain ((mirror h xs).link list.head last).Linked := by
      have part : (list.head :: xs.reverse).Nodup := by
        refine once.sublist ?_
        exact (sublist_append_left ..).cons_cons _
      rw [fromLast] at mirrored part ⊢
      have alone : ([] ++ [list.head]).IsChain (mirror h xs).Linked := isChain_singleton _
      exact Heap.chain_join alone mirrored part
    unfold CList.cells at once ⊢
    rw [toFirst, ← cons_append] at left
    rw [toFirst, append_assoc, ← cons_append] at once ⊢
    exact Heap.chain_join left (isChain_singleton _) once

theorem wp_swapLinks {Q : Unit → Heap P → Prop} (hf : elem ∉ ys) :
    Wp (swap (.prev elem) (.next elem)) Q (mirror h ys) ↔ Q () (mirror h (ys ++ [elem])) := by
  have after : ((mirror h ys).setPrev elem (h.next elem)).setNext elem (h.prev elem) =
      mirror h (ys ++ [elem]) := by
    ext1
    · funext p
      by_cases eq : p = elem
      · simp [mirror, eq]
      · simp [mirror, eq]
    · funext p
      by_cases eq : p = elem
      · simp [mirror, eq]
      · simp [mirror, eq]
  simp only [swap, load, store, wp_bind, wp_getPrev, wp_getNext, wp_setPrev, wp_setNext]
  rw [← after]
  simp only [mirror, if_neg hf]

theorem wp_reverseLoop (hr : Reps h list xs) (he : xs.length < rounds) :
    Wp (loop (fun e => do
      if e = list.tail then pure (.inr ())
      else do
        swap (.prev e) (.next e)
        return .inl (← deref (← getPrev e))) rounds (xs.headD list.tail))
      (fun _ h' => h' = mirror h xs) h := by
  have start : mirror h [] = h := rfl
  refine Wp.loop (I := fun n e h' => ∃ ys zs, At xs list n e ys zs ∧ h' = mirror h ys) ?_
    ⟨[], xs, ⟨rfl, rfl, rfl⟩, start.symm⟩ he
  intro n e h' now
  obtain ⟨ys, zs, ⟨split, hp, left⟩, rfl⟩ := now
  cases zs with
  | nil =>
    obtain rfl : e = list.tail := hp
    rw [if_pos rfl, wp_pure, split, append_nil]
  | cons z zs =>
    obtain rfl : e = z := hp
    have reps' := hr
    rw [split] at reps'
    have once : e ∉ ys := by
      intro old
      have once := (nodup_append.mp (nodup_cons.mp reps'.once).2).1
      exact (nodup_append.mp once).2.2 e old e (.head _) rfl
    have next : (mirror h (ys ++ [e])).prev e = some (zs.headD list.tail) := by
      simp only [mirror, mem_append, mem_singleton, or_true, if_true]
      exact reps'.next_elem
    rw [if_neg (reps'.elem_ne_tail (by simp)), wp_bind, wp_swapLinks once, wp_bind, wp_getPrev,
      next,
      wp_bind, wp_deref, wp_pure]
    exact ⟨zs.length, by simp [left], ys ++ [e], zs, ⟨by simp [split], rfl, rfl⟩, rfl⟩

theorem wp_listReverse (hr : Reps h list xs) (he : xs.length < rounds) :
    Wp (listReverse rounds list) (fun _ h' => Reps h' list xs.reverse ∧ h.Same h' (list.cells xs))
      h := by
  unfold listReverse
  rw [wp_bind, wp_listEmpty hr]
  obtain none | ⟨l, last, ends⟩ := xs.eq_nil_or_concat
  · subst none
    exact .pure ⟨hr, .refl _ _⟩
  rw [concat_eq_append] at ends
  obtain ⟨first, r, starts⟩ := exists_cons_of_ne_nil (l := xs) (by simp [ends])
  have firstIn : first ∈ xs := by rw [starts]; exact (.head _)
  have lastIn : last ∈ xs := by rw [ends]; simp
  have head : list.head ∉ xs := fun mem => hr.elem_ne_head mem rfl
  have tail : list.tail ∉ xs := fun mem => hr.elem_ne_tail mem rfl
  have nextHead : h.next list.head = some first := by rw [hr.next_head, starts]; rfl
  have prevTail : h.prev list.tail = some last := by rw [hr.prev_tail, ends, getLastD_concat]
  have prevFirst : h.prev first = some list.head := by
    have reps' : Reps h list ([] ++ first :: r) := by rw [← starts]; exact hr
    exact reps'.prev_elem
  have nextLast : h.next last = some list.tail := by
    have reps' : Reps h list (l ++ last :: []) := by rw [← ends]; exact hr
    exact reps'.next_elem
  have after :
    ((((mirror h xs).setNext list.head (some last)).setPrev list.tail (some first)).setPrev last
      (some list.head)).setNext first (some list.tail) =
      ((mirror h xs).link list.head last).link first list.tail := by
    ext1
    · exact Function.update_comm (hr.elem_ne_tail lastIn).symm ..
    · rfl
  rw [if_neg (by simp [starts]), wp_bind, wp_listBegin hr, wp_bind]
  refine (wp_reverseLoop hr he).mono ?_
  rintro _ _ rfl
  have links : (mirror h xs).next list.head = some first ∧ (mirror h xs).prev list.tail =
    some last ∧
      (mirror h xs).prev last = some list.tail ∧ (mirror h xs).next first = some list.head := by
    simp only [mirror, if_neg head, if_neg tail, if_pos firstIn, if_pos lastIn]
    exact ⟨nextHead, prevTail, nextLast, prevFirst⟩
  obtain ⟨link1, link2, link3, link4⟩ := links
  simp only [swap, load, store, wp_bind, wp_getPrev, wp_getNext, wp_setPrev, wp_setNext, wp_deref,
    Heap.setNext_prev, Heap.setPrev_next, Heap.setNext_next, Heap.setPrev_prev, link1, link2, link3,
      link4,
    if_true, if_neg (hr.elem_ne_tail lastIn), if_neg (hr.elem_ne_head firstIn), after]
  refine ⟨hr.mirrored starts ends, ?_⟩
  have cells : ∀ x ∈ xs, x ∈ list.cells xs := fun x hx => CList.mem_cells.mpr (.inr (.inl hx))
  have eq : h.Same (mirror h xs) (list.cells xs) := by
    intro p out
    have ne : p ∉ xs := fun mem => out (cells p mem)
    simp [mirror, ne]
  refine eq.trans ((Heap.link_same ?_ ?_).trans (Heap.link_same ?_ ?_))
  · exact CList.mem_cells.mpr (.inl rfl)
  · exact cells last lastIn
  · exact cells first firstIn
  · exact CList.mem_cells.mpr (.inr (.inr rfl))

/-! ### Duplicates -/

/-- The loop of `list_unique` stands at `elem`, which is kept. -/
structure UniqueAt (less : P → P → Bool) (h h' : Heap P) (list : CList P)
    (duplicates : Option (CList P)) (xs ds area : List P) (n : Nat) (elem : P)
    (kept rest out : List P) : Prop where
  reps : Reps h' list (kept ++ elem :: rest)
  left : n = rest.length
  cells : list.cells (kept ++ elem :: rest) ⊆ area
  others : ∀ d, duplicates = some d → Reps h' d out ∧ d.cells out ⊆ area ∧
    ∀ x ∈ list.cells (kept ++ elem :: rest), x ∉ d.cells out
  same : h.Same h' area
  keeps : kept ++ elem :: (uniqueFrom less elem rest).1 = (unique less xs).1
  leaves : out ++ (uniqueFrom less elem rest).2 = ds ++ (unique less xs).2

section
variable {duplicates : Option (CList P)} {ds passed rest out : List P} {next : P} {n : Nat}

omit [DecidableEq P] in
theorem UniqueAt.keep
    (at_ : UniqueAt lt h h' list duplicates xs ds area n elem passed (next :: rest) out)
    (differs : ¬ (!lt elem next && !lt next elem) = true) :
    UniqueAt lt h h' list duplicates xs ds area rest.length next (passed ++ [elem]) rest out := by
  obtain ⟨hr, _, cells, others, eq, keeps, leaves⟩ := at_
  rw [append_cons] at hr cells others
  rw [uniqueFrom, if_neg differs] at keeps leaves
  exact ⟨hr, rfl, cells, others, eq, by rw [← keeps]; simp, leaves⟩

/-- The next element is taken out, and put behind the duplicates if there is a list for them. -/
theorem UniqueAt.drop
    (at_ : UniqueAt lt h h' list duplicates xs ds area n elem passed (next :: rest) out)
    (equal : (!lt elem next && !lt next elem) = true) :
    Wp (do
        let _ ← listRemove next
        pushDuplicate duplicates next)
      (fun _ h'' => ∃ out',
        UniqueAt lt h h'' list duplicates xs ds area rest.length elem passed rest out')
      h' := by
  obtain ⟨hr, _, cells, others, same, keeps, leaves⟩ := at_
  rw [uniqueFrom, if_pos equal] at keeps leaves
  have split : passed ++ elem :: next :: rest = (passed ++ [elem]) ++ next :: rest := by simp
  have join : passed ++ [elem] ++ rest = passed ++ elem :: rest := by simp
  have nextIn : next ∈ list.cells (passed ++ elem :: next :: rest) := by simp [CList.mem_cells]
  rw [wp_bind]
  rw [split] at hr
  have fewer : ∀ x ∈ list.cells (passed ++ elem :: rest),
      x ∈ list.cells (passed ++ elem :: next :: rest) ∧ x ≠ next := by
    obtain ⟨L, p, R, cut⟩ := exists_cut list (passed ++ [elem]) rest
    rw [append_cons (passed ++ [elem])] at hr
    have ne := hr.range_apart cut next (mem_singleton_self next)
    rw [join] at ne
    intro x hx
    refine ⟨?_, fun eq => ne (eq ▸ hx)⟩
    simp only [CList.mem_cells, mem_append, mem_cons] at hx ⊢
    tauto
  refine (wp_listRemove hr).mono fun _ h1 ⟨_, reps1, same1⟩ => ?_
  rw [join] at reps1 same1
  have hi : list.cells (passed ++ elem :: rest) ⊆ area := fun x hx => cells (fewer x hx).1
  have same' := same.trans (same1.mono hi)
  cases duplicates with
  | none =>
    rw [pushDuplicate, wp_pure]
    exact ⟨out ++ [next], reps1, rfl, hi, nofun, same', keeps, by rw [← leaves]; simp⟩
  | some d =>
    obtain ⟨reps', cells', ne⟩ := others d rfl
    rw [pushDuplicate]
    have reps'1 := reps'.same same1 fun x hx old => ne x (fewer x old).1 hx
    refine (wp_listPushBack reps'1 (ne next nextIn)).mono fun _ h2 ⟨reps'2, same2⟩ => ?_
    have reps2 := reps1.same same2 fun x hx => by
      rw [mem_cons, not_or]
      exact ⟨(fewer x hx).2, ne x (fewer x hx).1⟩
    have inside' : next :: d.cells out ⊆ area := cons_subset.mpr ⟨cells nextIn, cells'⟩
    have more : ∀ x, x ∈ d.cells (out ++ [next]) ↔ x = next ∨ x ∈ d.cells out := by
      intro x
      simp only [CList.mem_cells, mem_append, mem_singleton]
      tauto
    refine ⟨out ++ [next], reps2, rfl, hi, ?_, same'.trans (same2.mono inside'), keeps, by
      rw [← leaves]; simp⟩
    rintro _ ⟨⟩
    refine ⟨reps'2, fun x hx => ?_, fun x hx new => ?_⟩
    · exact inside' (mem_cons.mpr ((more x).mp hx))
    · obtain eq | old := (more x).mp new
      · exact (fewer x hx).2 eq
      · exact ne x (fewer x hx).1 old

theorem wp_listUnique (hr : Reps h list xs)
    (others : ∀ d, duplicates = some d → Reps h d ds ∧ ∀ x ∈ list.cells xs, x ∉ d.cells ds)
    (hi : list.cells xs ⊆ area) (inside' : ∀ d, duplicates = some d → d.cells ds ⊆ area)
    (he : xs.length < rounds) :
    Wp (listUnique rounds list duplicates lt) (fun _ h' => Reps h' list (unique lt xs).1 ∧
      (∀ d, duplicates = some d → Reps h' d (ds ++ (unique lt xs).2)) ∧ h.Same h' area) h := by
  unfold listUnique
  rw [wp_bind, wp_listEmpty hr]
  cases xs with
  | nil =>
    rw [if_pos (by simp), wp_pure, unique, append_nil]
    exact ⟨hr, fun d is => (others d is).1, .refl _ _⟩
  | cons x xs =>
    rw [if_neg (by simp), wp_bind, wp_listBegin hr]
    have start : UniqueAt lt h h list duplicates (x :: xs) ds area xs.length x [] xs ds :=
      ⟨hr, rfl, hi, fun d is => ⟨(others d is).1, inside' d is, (others d is).2⟩, .refl _ _, rfl,
        rfl⟩
    refine Wp.loop (I := fun n elem h' => ∃ passed rest out,
      UniqueAt lt h h' list duplicates (x :: xs) ds area n elem passed rest out) ?_
      ⟨[], xs, ds, start⟩ (Nat.lt_of_succ_lt he)
    intro n elem h' now
    obtain ⟨passed, rest, out, at_⟩ := now
    rw [wp_bind, wp_listNext at_.reps]
    cases rest with
    | nil =>
      rw [headD_nil, if_pos rfl, wp_pure]
      have keeps := at_.keeps
      have leaves := at_.leaves
      rw [uniqueFrom] at keeps leaves
      rw [← keeps, ← leaves, append_nil]
      exact ⟨at_.reps, fun d is => (at_.others d is).1, at_.same⟩
    | cons next rest =>
      rw [headD_cons, if_neg (at_.reps.elem_ne_tail (by simp))]
      have less' : rest.length < n := by rw [at_.left]; simp
      split_ifs with equal
      · have dropped := at_.drop equal
        rw [wp_bind] at dropped ⊢
        refine dropped.mono fun _ h1 hm => ?_
        rw [wp_bind]
        refine hm.mono fun _ h2 ⟨out', next⟩ => ?_
        rw [wp_pure]
        exact ⟨rest.length, less', passed, rest, out', next⟩
      · rw [wp_pure]
        exact ⟨rest.length, less', passed ++ [elem], rest, out, at_.keep equal⟩

end

/-- Every operation on lists of `P`s, on well-formed lists, as an operation on sequences. Positions
are given by the elements before and behind them. -/
structure ListRefines (P : Type) [DecidableEq P] : Prop where
  insert : ∀ (h : Heap P) (list : CList P) (ys zs : List P) (elem : P),
    Reps h list (ys ++ zs) → elem ∉ list.cells (ys ++ zs) →
    Wp (listInsert (zs.headD list.tail) elem) (fun _ h' => Reps h' list (ys ++ elem :: zs) ∧
      h.Same h' (elem :: list.cells (ys ++ zs))) h
  /-- Within one list: what is moved comes before a place in what stays. -/
  spliceWithin : ∀ (h : Heap P) (list : CList P) (ys range zs ds es : List P),
    Reps h list (ys ++ range ++ zs) → ds ++ es = ys ++ zs →
    Wp (listSplice (es.headD list.tail) ((range ++ zs).headD list.tail) (zs.headD list.tail))
      (fun _ h' => Reps h' list (ds ++ range ++ es) ∧ h.Same h' (list.cells (ys ++ range ++ zs))) h
  spliceAcross : ∀ (h : Heap P) (list other : CList P) (ys range zs ds es : List P),
    Reps h list (ys ++ range ++ zs) → Reps h other (ds ++ es) →
    (∀ x ∈ list.cells (ys ++ range ++ zs), x ∉ other.cells (ds ++ es)) →
    Wp (listSplice (es.headD other.tail) ((range ++ zs).headD list.tail) (zs.headD list.tail))
      (fun _ h' => Reps h' list (ys ++ zs) ∧ Reps h' other (ds ++ range ++ es) ∧
        h.Same h' (list.cells (ys ++ range ++ zs) ++ other.cells (ds ++ es))) h
  pushFront : ∀ (h : Heap P) (list : CList P) (xs : List P) (elem : P), Reps h list xs →
    elem ∉ list.cells xs → Wp (listPushFront list elem) (fun _ h' => Reps h' list (elem :: xs) ∧
      h.Same h' (elem :: list.cells xs)) h
  pushBack : ∀ (h : Heap P) (list : CList P) (xs : List P) (elem : P), Reps h list xs →
    elem ∉ list.cells xs → Wp (listPushBack list elem) (fun _ h' => Reps h' list (xs ++ [elem]) ∧
      h.Same h' (elem :: list.cells xs)) h
  remove : ∀ (h : Heap P) (list : CList P) (ys zs : List P) (elem : P), Reps h list
    (ys ++ elem :: zs) →
    Wp (listRemove elem) (fun r h' => r = zs.headD list.tail ∧ Reps h' list (ys ++ zs) ∧
      h.Same h' (list.cells (ys ++ zs))) h
  popFront : ∀ (h : Heap P) (list : CList P) (xs : List P) (elem : P), Reps h list (elem :: xs) →
    Wp (listPopFront list) (fun r h' => r = elem ∧ Reps h' list xs ∧ h.Same h' (list.cells xs)) h
  popBack : ∀ (h : Heap P) (list : CList P) (xs : List P) (elem : P), Reps h list (xs ++ [elem]) →
    Wp (listPopBack list) (fun r h' => r = elem ∧ Reps h' list xs ∧ h.Same h' (list.cells xs)) h
  reverse : ∀ (h : Heap P) (list : CList P) (xs : List P) (rounds : Nat), Reps h list xs →
    xs.length < rounds → Wp (listReverse rounds list) (fun _ h' => Reps h' list xs.reverse ∧
      h.Same h' (list.cells xs)) h
  dropDuplicates : ∀ (h : Heap P) (list : CList P) (xs : List P) (less : P → P → Bool)
    (rounds : Nat),
    Reps h list xs → xs.length < rounds →
    Wp (listUnique rounds list none less) (fun _ h' => Reps h' list (unique less xs).1 ∧
      h.Same h' (list.cells xs)) h
  moveDuplicates : ∀ (h : Heap P) (list duplicates : CList P) (xs ds : List P) (less : P → P → Bool)
    (rounds : Nat), Reps h list xs → Reps h duplicates ds →
    (∀ x ∈ list.cells xs, x ∉ duplicates.cells ds) → xs.length < rounds →
    Wp (listUnique rounds list (some duplicates) less)
      (fun _ h' => Reps h' list (unique less xs).1 ∧
      Reps h' duplicates (ds ++ (unique less xs).2) ∧
      h.Same h' (list.cells xs ++ duplicates.cells ds)) h
  insertInOrder : ∀ (h : Heap P) (list : CList P) (xs : List P) (elem : P) (less : P → P → Bool)
    (rounds : Nat), Reps h list xs → elem ∉ list.cells xs → xs.length < rounds →
    Wp (listInsertOrdered rounds list elem less) (fun _ h' =>
      Reps h' list (insertOrdered (fun a b => less a b = true) elem xs) ∧
      h.Same h' (elem :: list.cells xs)) h
  /-- A well-formed list can be traversed both ways. -/
  traverse : ∀ (h : Heap P) (list : CList P) (xs : List P) (rounds : Nat), Reps h list xs →
    xs.length < rounds → Wp (forward rounds list) (fun r h' => r = xs ∧ h' = h) h ∧
      Wp (backward rounds list) (fun r h' => r = xs.reverse ∧ h' = h) h

theorem list_refines (P : Type) [DecidableEq P] : ListRefines P where
  insert _ _ _ _ _ reps fresh := wp_listInsert reps fresh
  spliceWithin _ _ _ _ _ _ _ reps rest := wp_listSplice_within reps rest
  spliceAcross _ _ _ _ _ _ _ _ reps dest ne := wp_listSplice_across reps dest ne
  pushFront _ _ _ _ reps fresh := wp_listPushFront reps fresh
  pushBack _ _ _ _ reps fresh := wp_listPushBack reps fresh
  remove _ _ _ _ _ reps := wp_listRemove reps
  popFront _ _ _ _ reps := wp_listPopFront reps
  popBack _ _ _ _ reps := wp_listPopBack reps
  reverse _ _ _ _ reps he := wp_listReverse reps he
  dropDuplicates h list xs _ _ reps he := by
    have others : ∀ d, none = some d → Reps h d [] ∧ ∀ x ∈ list.cells xs, x ∉ d.cells [] := nofun
    have all : list.cells xs ⊆ list.cells xs := fun _ => id
    exact (wp_listUnique reps others all nofun he).mono fun _ _ ⟨hk, _, eq⟩ => ⟨hk, eq⟩
  moveDuplicates _ _ duplicates _ ds _ _ reps reps' ne he := by
    refine (wp_listUnique reps ?_ (subset_append_left ..) ?_ he).mono
      fun _ _ ⟨hk, out, eq⟩ => ⟨hk, out duplicates rfl, eq⟩
    · rintro _ ⟨⟩
      exact ⟨reps', ne⟩
    · rintro _ ⟨⟩
      exact subset_append_right ..
  insertInOrder _ _ _ _ _ _ reps fresh he := wp_listInsertOrdered reps fresh he
  traverse _ _ _ _ reps he := ⟨wp_forward reps he, wp_backward reps he⟩

/-- The sentinels 0 and 1, and the elements 2, 3 and 4. -/
def three : Heap Nat where
  prev p := [none, some 4, some 0, some 2, some 3].getD p none
  next p := [some 2, none, some 3, some 4, some 1].getD p none

theorem list_refines_three : Reps three ⟨0, 1⟩ [2, 3, 4] ∧
    Wp (listReverse 4 ⟨0, 1⟩) (fun _ h' => Reps h' ⟨0, 1⟩ [4, 3, 2] ∧ three.Same h' [0, 2, 3, 4, 1])
      three := by
  have hr : Reps three ⟨0, 1⟩ [2, 3, 4] :=
    ⟨rfl, rfl, by simp [CList.cells, Heap.Linked, three], by decide⟩
  exact ⟨hr, (list_refines Nat).reverse three ⟨0, 1⟩ [2, 3, 4] 4 hr (by decide)⟩

end Pintos.LinkedList
