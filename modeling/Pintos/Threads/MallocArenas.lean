import Mathlib.Data.List.Perm.Subperm
import Pintos.Kernel.ListRefinement
import Pintos.Threads.Malloc

/-!
# Arenas and their blocks

Every block of an arena is on the free list of its descriptor or handed out. What is written goes to
blocks that are handed out, and so it meets neither the links of free blocks nor the headers.
-/

namespace Pintos.Malloc

open Pintos.Paging (pgSize pgOfs pgOfs_eq)
open Pintos.LinkedList Prog Function List Option

def blockAt (a d i : Nat) : Nat := a + arenaSize + i * (desc d).blockSize

def inPage (a x : Nat) : Bool := x / pgSize == a / pgSize

/-- `x` is block `i` of arena `a`, which belongs to descriptor `d`. -/
@[grind cases] structure Block (s : Store) (a d i x : Nat) : Prop where
  page : (a, 1) ∈ s.pages
  owner : (s.arena a).desc = some d
  index : i < (desc d).blocksPerArena
  address : x = blockAt a d i

/-- `p` is the one block of the big arena `a`, which has `n` pages. -/
@[grind cases] structure BigBlock (s : Store) (a n p : Nat) : Prop where
  page : (a, n) ∈ s.pages
  owner : (s.arena a).desc = none
  address : p = a + arenaSize

/-- Two runs of pages have no byte in common. -/
def Apart (r t : Nat × Nat) : Prop := r.1 + pgSize * r.2 ≤ t.1 ∨ t.1 + pgSize * t.2 ≤ r.1

instance : Std.Symm Apart := ⟨fun _ _ => Or.symm⟩

@[grind cases] structure Pages (s : Store) : Prop where
  apart : s.pages.Pairwise Apart
  run : ∀ a n, (a, n) ∈ s.pages → a % pgSize = 0 ∧ 0 < a ∧ 0 < n
  magic : ∀ a n, (a, n) ∈ s.pages → (s.arena a).magic = arenaMagic
  small : ∀ a n d, (a, n) ∈ s.pages → (s.arena a).desc = some d → n = 1 ∧ d < descs.length

/-- The free lists hold the blocks `free d`, and `handed` are the blocks in use. -/
@[grind cases] structure Heaped (s : Store) (free : Nat → List Nat) (handed : List (Nat × Nat)) :
    Prop where
  pages : Pages s
  count : ∀ a d, (a, 1) ∈ s.pages → (s.arena a).desc = some d →
    (s.arena a).freeCnt = (free d).countP (inPage a)
  big : ∀ a n, (a, n) ∈ s.pages → (s.arena a).desc = none →
    (s.arena a).freeCnt = n ∧ ∃ size, (a + arenaSize, size) ∈ handed
  lists : ∀ d < descs.length, Reps s.cells (freeList d) ((free d).map .block)
  listed : ∀ d < descs.length, ∀ x ∈ free d, ∃ a i, Block s a d i x
  used : ∀ p size, (p, size) ∈ handed →
    (∃ a d i, Block s a d i p ∧ p ∉ free d ∧ size ≤ (desc d).blockSize) ∨
      ∃ a n, BigBlock s a n p ∧ p + size ≤ a + pgSize * n
  once : (handed.map Prod.fst).Nodup
  cover : ∀ a d i x, Block s a d i x → x ∈ free d ∨ ∃ size, (x, size) ∈ handed

variable {s s' : Store} {free : Nat → List Nat} {handed handed' : List (Nat × Nat)}
  {a a' d d' i j n p q x lo hi size count : Nat} {l xs : List Nat} {Q : Nat → Store → Prop}

/-! ### Where blocks are -/

theorem desc_fits (hv : d < descs.length) : 16 ≤ (desc d).blockSize ∧
    arenaSize + (desc d).blocksPerArena * (desc d).blockSize ≤ pgSize ∧
    2 ≤ (desc d).blocksPerArena := by
  have all : ∀ d < descs.length, 16 ≤ (desc d).blockSize ∧
      arenaSize + (desc d).blocksPerArena * (desc d).blockSize ≤ pgSize ∧
      2 ≤ (desc d).blocksPerArena := by decide
  exact all d hv

theorem blockAt_inside (hv : d < descs.length) (index : i < (desc d).blocksPerArena) :
    a + arenaSize ≤ blockAt a d i ∧ blockAt a d i + (desc d).blockSize ≤ a + pgSize := by
  obtain ⟨_, hf, _⟩ := desc_fits hv
  have last : (i + 1) * (desc d).blockSize ≤ (desc d).blocksPerArena * (desc d).blockSize :=
    Nat.mul_le_mul_right _ index
  rw [Nat.add_mul, Nat.one_mul] at last
  unfold blockAt
  omega

theorem blockAt_apart (lt : i < j) : blockAt a d i + (desc d).blockSize ≤ blockAt a d j := by
  have next : (i + 1) * (desc d).blockSize ≤ j * (desc d).blockSize := Nat.mul_le_mul_right _ lt
  rw [Nat.add_mul, Nat.one_mul] at next
  unfold blockAt
  omega

theorem blockAt_inj (hv : d < descs.length) (eq : blockAt a d i = blockAt a d j) : i = j := by
  obtain ⟨large, _⟩ := desc_fits hv
  by_contra ne
  rcases Nat.lt_or_gt_of_ne ne with lt | lt
  · have := blockAt_apart (a := a) (d := d) lt
    omega
  · have := blockAt_apart (a := a) (d := d) lt
    omega

/-- Addresses in an aligned page. -/
theorem inPage_iff (ha : a % pgSize = 0) : inPage a x = true ↔ a ≤ x ∧ x < a + pgSize := by
  unfold inPage
  rw [beq_iff_eq]
  unfold pgSize at *
  omega

namespace Pages

theorem valid (pages : Pages s) (page : (a, n) ∈ s.pages) (is : (s.arena a).desc = some d) :
    d < descs.length :=
  (pages.small a n d page is).2

variable {m : Nat}

theorem disjoint (pages : Pages s) (first : (a, n) ∈ s.pages) (second : (a', m) ∈ s.pages)
    (ne : (a, n) ≠ (a', m)) : a + pgSize * n ≤ a' ∨ a' + pgSize * m ≤ a :=
  pages.apart.forall first second ne

theorem unique (pages : Pages s) (first : (a, n) ∈ s.pages) (second : (a, m) ∈ s.pages) :
    n = m := by
  by_contra ne
  have pos := (pages.run a n first).2.2
  have positive' := (pages.run a m second).2.2
  have := pages.disjoint first second (by simpa using ne)
  unfold pgSize at this
  omega

end Pages

namespace Block

theorem inside (block : Block s a d i x) (pages : Pages s) :
    a + arenaSize ≤ x ∧ x + (desc d).blockSize ≤ a + pgSize := by
  rw [block.address]
  exact blockAt_inside (pages.valid block.page block.owner) block.index

theorem inPage (block : Block s a d i x) (pages : Pages s) : inPage a x = true := by
  obtain ⟨low, high⟩ := block.inside pages
  obtain ⟨large, _⟩ := desc_fits (pages.valid block.page block.owner)
  rw [inPage_iff (pages.run a 1 block.page).1]
  omega

/-- The page tells the arena. -/
theorem of_inPage (block : Block s a d i x) (pages : Pages s) (page : (a', 1) ∈ s.pages)
    (owner : (s.arena a').desc = some d') (h : Malloc.inPage a' x = true) : a = a' ∧ d = d' := by
  have own := block.inPage pages
  have ha := (pages.run a 1 block.page).1
  have aligned' := (pages.run a' 1 page).1
  rw [inPage_iff ha] at own
  rw [inPage_iff aligned'] at h
  have eq : a = a' := by
    unfold pgSize at *
    omega
  subst eq
  exact ⟨rfl, some.inj (block.owner.symm.trans owner)⟩

/-- A block is in one place only. -/
theorem unique (block : Block s a d i x) (pages : Pages s) (ne : Block s a' d' j x) :
    a = a' ∧ d = d' ∧ i = j := by
  obtain ⟨rfl, rfl⟩ := block.of_inPage pages ne.page ne.owner (ne.inPage pages)
  have place := block.address.symm.trans ne.address
  exact ⟨rfl, rfl, blockAt_inj (pages.valid block.page block.owner) place⟩

end Block

/-! ### What may be written -/

/-- The bytes from `lo` up to `hi` meet no header and no free block. -/
structure Clear (s : Store) (free : Nat → List Nat) (lo hi : Nat) : Prop where
  headers : ∀ a n, (a, n) ∈ s.pages → hi ≤ a ∨ a + arenaSize ≤ lo
  blocks : ∀ d < descs.length, ∀ x ∈ free d, hi ≤ x ∨ x + linkSize ≤ lo

theorem Clear.within (clear : Clear s free lo hi) {lo' hi' : Nat} (low : lo ≤ lo')
    (high : hi' ≤ hi) :
    Clear s free lo' hi' where
  headers a n page := by
    have := clear.headers a n page
    omega
  blocks d hv x hl := by
    have := clear.blocks d hv x hl
    omega

namespace Heaped

section
variable (heaped : Heaped s free handed)
include heaped

/-- Memory outside the headers and the links may change. -/
theorem keep (pages : s'.pages = s.pages)
    (arena : ∀ a n, (a, n) ∈ s.pages → s'.arena a = s.arena a)
    (cells : ∀ d < descs.length, ∀ e ∈ (freeList d).cells ((free d).map .block),
      s'.cells.prev e = s.cells.prev e ∧ s'.cells.next e = s.cells.next e) :
    Heaped s' free handed := by
  have block : ∀ a d i x, Block s' a d i x ↔ Block s a d i x := by
    intro a d i x
    constructor
    · rintro ⟨page, owner, index, address⟩
      rw [pages] at page
      rw [arena a 1 page] at owner
      exact ⟨page, owner, index, address⟩
    · rintro ⟨page, owner, index, address⟩
      exact ⟨by rwa [pages], by rwa [arena a 1 page], index, address⟩
  constructor
  case pages =>
    constructor
    case apart => rw [pages]; exact heaped.pages.apart
    case run => rw [pages]; exact heaped.pages.run
    case magic => grind
    case small => grind
  case count => grind
  case big => grind
  case lists =>
    intro d valid
    exact (heaped.lists d valid).agree (cells d valid)
  case listed => grind
  case used =>
    intro p size member
    rcases heaped.used p size member with ⟨a, d, i, is, rest⟩ | ⟨a, n, is, rest⟩
    · exact .inl ⟨a, d, i, (block a d i p).mpr is, rest⟩
    · refine .inr ⟨a, n, ⟨by rw [pages]; exact is.page, ?_, is.address⟩, rest⟩
      rw [arena a n is.page]
      exact is.owner
  case once => exact heaped.once
  case cover =>
    intro a d i x is
    exact heaped.cover a d i x ((block a d i x).mp is)

theorem overwrite (clear : Clear s free lo hi) (bytes : Bytes) :
    Heaped (s.overwrite lo hi bytes) free handed := by
  refine heaped.keep ?_ ?_ ?_
  · rfl
  · intro a n page
    have := clear.headers a n page
    show (if _ then _ else _) = _
    rw [if_neg]
    unfold arenaSize at *
    omega
  · intro d hv e member
    cases e with
    | head | tail => exact ⟨rfl, rfl⟩
    | block x =>
      have hl : x ∈ free d := by simpa [CList.mem_cells, freeList] using member
      have ne : ¬ (x < hi ∧ lo < x + linkSize) := by
        have := clear.blocks d hv x hl
        omega
      exact ⟨if_neg ne, if_neg ne⟩

/-- All of a block in use. -/
theorem clear_block (block : Block s a d i p) (used : p ∉ free d) :
    Clear s free p (p + (desc d).blockSize) := by
  obtain ⟨low, high⟩ := block.inside heaped.pages
  constructor
  case headers =>
    intro a' n page
    by_cases same : (a', n) = (a, 1)
    · cases same
      exact .inr low
    · have positive := (heaped.pages.run a' n page).2.2
      have := heaped.pages.disjoint page block.page same
      unfold pgSize arenaSize at *
      omega
  case blocks =>
    intro d' hv x hl
    obtain ⟨a', j, other⟩ := heaped.listed d' hv x hl
    obtain ⟨low', high'⟩ := other.inside heaped.pages
    obtain ⟨large, _⟩ := desc_fits hv
    by_cases same : a' = a
    · subst same
      have kind : d' = d := some.inj (other.owner.symm.trans block.owner)
      subst kind
      have differ : i ≠ j := by
        rintro rfl
        exact used (block.address.symm ▸ other.address ▸ hl)
      rw [block.address, other.address]
      unfold linkSize
      rcases Nat.lt_or_gt_of_ne differ with lt | lt
      · exact .inl (blockAt_apart lt)
      · have := blockAt_apart (a := a') (d := d') lt
        omega
    · have := heaped.pages.disjoint other.page block.page (by simpa using same)
      unfold pgSize linkSize at *
      omega

theorem clear_big (block : BigBlock s a n p) : Clear s free p (a + pgSize * n) := by
  have address := block.address
  constructor
  case headers =>
    intro a' n' page
    by_cases same : (a', n') = (a, n)
    · cases same
      exact .inr (by omega)
    · have positive := (heaped.pages.run a' n' page).2.2
      have := heaped.pages.disjoint page block.page same
      unfold pgSize arenaSize at *
      omega
  case blocks =>
    intro d hv x hl
    obtain ⟨a', j, other⟩ := heaped.listed d hv x hl
    obtain ⟨low', high'⟩ := other.inside heaped.pages
    obtain ⟨large, _⟩ := desc_fits hv
    have differ : (a', 1) ≠ (a, n) := by grind
    have := heaped.pages.disjoint other.page block.page differ
    unfold pgSize linkSize arenaSize at *
    omega

/-- The bytes that were asked for. -/
theorem clear_used (member : (p, size) ∈ handed) : Clear s free p (p + size) := by
  rcases heaped.used p size member with ⟨a, d, i, block, hu, hf⟩ | ⟨a, n, block, hf⟩
  · exact (heaped.clear_block block hu).within (Nat.le_refl p) (by omega)
  · exact (heaped.clear_big block).within (Nat.le_refl p) hf

/-- Memory that malloc does not have. -/
theorem clear_foreign
    (foreign : ∀ run ∈ s.pages, hi ≤ run.1 ∨ run.1 + pgSize * run.2 ≤ lo) : Clear s free lo hi where
  headers a n page := by
    have positive := (heaped.pages.run a n page).2.2
    have := foreign (a, n) page
    unfold pgSize arenaSize at *
    omega
  blocks d hv x hl := by
    obtain ⟨a, i, block⟩ := heaped.listed d hv x hl
    obtain ⟨low, high⟩ := block.inside heaped.pages
    obtain ⟨large, _⟩ := desc_fits hv
    have := foreign (a, 1) block.page
    unfold linkSize at *
    omega

end

end Heaped

/-! ### Counting blocks -/

def blocksOf (a d : Nat) : List Nat := (range (desc d).blocksPerArena).map (blockAt a d)

theorem blocksOf_nodup (hv : d < descs.length) : (blocksOf a d).Nodup := by
  apply Nodup.map_on _ nodup_range
  intro i _ j _ eq
  exact blockAt_inj hv eq

theorem mem_blocksOf : x ∈ blocksOf a d ↔ ∃ i < (desc d).blocksPerArena, x = blockAt a d i := by
  simp [blocksOf, eq_comm]

theorem inPage_blocksOf (hv : d < descs.length) (ha : a % pgSize = 0)
    (mem : x ∈ blocksOf a d) : inPage a x = true := by
  obtain ⟨i, index, rfl⟩ := mem_blocksOf.mp mem
  obtain ⟨low, high⟩ := blockAt_inside (a := a) hv index
  obtain ⟨large, _⟩ := desc_fits hv
  rw [inPage_iff ha]
  omega

/-- A list with all blocks of an arena has at least so many elements in its page. -/
theorem le_countP (hv : d < descs.length) (ha : a % pgSize = 0)
    (all : ∀ i < (desc d).blocksPerArena, blockAt a d i ∈ l) :
    (desc d).blocksPerArena ≤ l.countP (inPage a) := by
  have hi : blocksOf a d ⊆ l.filter (inPage a) := by
    intro x mem
    obtain ⟨i, index, rfl⟩ := mem_blocksOf.mp mem
    exact mem_filter.mpr ⟨all i index, inPage_blocksOf hv ha mem⟩
  have := (Nodup.subperm (blocksOf_nodup (a := a) hv) hi).length_le
  rwa [blocksOf, length_map, length_range, ← countP_eq_length_filter] at this

/-- A list that has no more than the blocks of an arena in its page, and as many, has them all. -/
theorem all_of_countP (once : l.Nodup) (blocks : ∀ x ∈ l, inPage a x = true → x ∈ blocksOf a d) :
    l.countP (inPage a) ≤ (desc d).blocksPerArena ∧
      ((desc d).blocksPerArena ≤ l.countP (inPage a) → ∀ x ∈ blocksOf a d, x ∈ l) := by
  have hi : l.filter (inPage a) ⊆ blocksOf a d := by grind
  have subperm := Nodup.subperm (once.filter (inPage a)) hi
  have length : (blocksOf a d).length = (desc d).blocksPerArena := by
    rw [blocksOf, length_map, length_range]
  constructor
  · have := subperm.length_le
    rwa [length, ← countP_eq_length_filter] at this
  · intro full x mem
    have perm := subperm.perm_of_length_le (by rwa [length, ← countP_eq_length_filter])
    exact (mem_filter.mp (perm.mem_iff.mpr mem)).1

/-! ### Small steps -/

@[simp] theorem wp_onLists {α : Type} {m : M Elem α} {Q : α → Store → Prop} :
    Wp (onLists m) Q s ↔ Wp m (fun r cells => Q r { s with cells }) s.cells := by
  unfold Wp onLists
  constructor
  · grind
  · rintro ⟨r, cells, run, post⟩
    exact ⟨r, _, by rw [run], post⟩

@[simp] theorem wp_getArena {Q : Arena → Store → Prop} : Wp (getArena a) Q s ↔ Q (s.arena a) s := by
  simp [getArena]

@[simp] theorem wp_setArena {header : Arena} {Q : Unit → Store → Prop} :
    Wp (setArena a header) Q s ↔ Q () (s.setArena a header) := by
  simp [setArena]

theorem pgRoundDown_eq (ha : a % pgSize = 0) (low : a ≤ x) (high : x < a + pgSize) :
    pgRoundDown x = a := by
  unfold pgRoundDown
  rw [pgOfs_eq]
  unfold pgSize at *
  omega

theorem wp_blockToArena (pages : Pages s) (block : Block s a d i x) :
    Wp (blockToArena x) Q s ↔ Q a s := by
  obtain ⟨ha, pos, _⟩ := pages.run a 1 block.page
  have hv := pages.valid block.page block.owner
  obtain ⟨low, high⟩ := block.inside pages
  obtain ⟨large, _⟩ := desc_fits hv
  have down : pgRoundDown x = a := by
    apply pgRoundDown_eq ha
    · omega
    · omega
  have offset : blockOfs x = i * (desc d).blockSize := by
    have address := block.address
    unfold blockAt at address
    unfold blockOfs
    rw [pgOfs_eq]
    unfold pgSize at *
    generalize i * (desc d).blockSize = k at *
    unfold arenaSize at *
    omega
  have nonzero : a ≠ 0 := by omega
  simp only [blockToArena, down, wp_bind, wp_assert, wp_getArena, wp_pure,
    pages.magic a 1 block.page,
    block.owner, mem_def, some.injEq, forall_eq', offset, Nat.mul_mod_left, ne_eq,
    nonzero, not_false_eq_true, reduceCtorEq, true_or, true_and]

theorem wp_blockToArena_big (pages : Pages s) (block : BigBlock s a n p) :
    Wp (blockToArena p) Q s ↔ Q a s := by
  obtain ⟨ha, pos, _⟩ := pages.run a n block.page
  have address := block.address
  have down : pgRoundDown p = a := by
    apply pgRoundDown_eq ha
    · omega
    · unfold pgSize arenaSize at *
      omega
  have offset : pgOfs p = arenaSize := by
    rw [pgOfs_eq]
    unfold pgSize arenaSize at *
    omega
  have nonzero : a ≠ 0 := by omega
  simp [blockToArena, down, pages.magic a n block.page, block.owner, offset, nonzero]

theorem wp_arenaToBlock (pages : Pages s) (page : (a, 1) ∈ s.pages)
    (owner : (s.arena a).desc = some d)
    (index : i < (desc d).blocksPerArena) :
    Wp (arenaToBlock a i) Q s ↔ Q (blockAt a d i) s := by
  have nonzero : a ≠ 0 := by
    have := (pages.run a 1 page).2.1
    omega
  simp [arenaToBlock, derefDesc, nonzero, pages.magic a 1 page, owner, index, blockAt]

/-! ### Free lists -/

/-- A change to one free list, at cells that no other list has. -/
theorem relist (lists : ∀ d < descs.length, Reps s.cells (freeList d) ((free d).map .block))
    {cells : Heap Elem} {area : List Elem}
    (list : Reps cells (freeList d) (xs.map .block)) (eq : s.cells.Same cells area)
    (own : ∀ e ∈ area, e = .head d ∨ e = .tail d ∨
      ∃ x, e = .block x ∧ ∀ d' < descs.length, d' ≠ d → x ∉ free d') :
    ∀ d' < descs.length, Reps cells (freeList d') ((update free d xs d').map .block) := by
  intro d' hv
  by_cases h : d' = d
  · subst h
    rwa [update_self]
  · rw [update_of_ne h]
    apply (lists d' hv).same eq
    intro e mem hi
    rcases own e hi with rfl | rfl | ⟨x, rfl, hu⟩
    · simp [CList.mem_cells, freeList] at mem
      exact h mem.symm
    · simp [CList.mem_cells, freeList] at mem
      exact h mem.symm
    · simp [CList.mem_cells, freeList] at mem
      exact hu d' hv h mem

section
variable (heaped : Heaped s free handed)
include heaped

/-- The cells of a free list. -/
theorem own_cells (hl : ∀ x ∈ xs, ∃ a i, Block s a d i x) (e : Elem)
    (member : e ∈ (freeList d).cells (xs.map .block)) : e = .head d ∨ e = .tail d ∨
      ∃ x, e = .block x ∧ ∀ d' < descs.length, d' ≠ d → x ∉ free d' := by
  rcases CList.mem_cells.mp member with rfl | inner | rfl
  · exact .inl rfl
  · obtain ⟨x, is, rfl⟩ := mem_map.mp inner
    refine .inr (.inr ⟨x, rfl, fun d' valid' ne listed' => ?_⟩)
    obtain ⟨a, i, block⟩ := hl x is
    obtain ⟨a', j, other⟩ := heaped.listed d' valid' x listed'
    exact ne (other.unique heaped.pages block).2.1
  · exact .inr (.inl rfl)

theorem Heaped.listed_once (hv : d < descs.length) : (free d).Nodup := by
  have once := (heaped.lists d hv).once
  unfold CList.cells at once
  have inner := (nodup_append.mp (nodup_cons.mp once).2).1
  exact Nodup.of_map _ inner

/-- A block on a free list is not in use. -/
theorem Heaped.not_used (hv : d < descs.length) (hl : x ∈ free d) : x ∉ handed.map Prod.fst := by
  intro member
  obtain ⟨⟨p, size⟩, used, rfl⟩ := mem_map.mp member
  obtain ⟨a, i, block⟩ := heaped.listed d hv p hl
  rcases heaped.used p size used with ⟨a', d', j, ne, hu, _⟩ | ⟨a', n, ne, _⟩
  · obtain ⟨rfl, rfl, rfl⟩ := block.unique heaped.pages ne
    exact hu hl
  · have h := (inPage_iff (heaped.pages.run a 1 block.page).1).mp (block.inPage heaped.pages)
    have ha := (heaped.pages.run a 1 block.page).1
    have aligned' := (heaped.pages.run a' n ne.page).1
    have address := ne.address
    have same : a = a' := by
      unfold pgSize arenaSize at *
      omega
    subst same
    have := block.owner.symm.trans ne.owner
    cases this

/-- A block in use is in malloc's pages, after the header. -/
theorem Heaped.used_inside (member : (p, size) ∈ handed) :
    ∃ a n, (a, n) ∈ s.pages ∧ a + arenaSize ≤ p ∧ p < a + pgSize * n ∧ p + size ≤
      a + pgSize * n := by
  rcases heaped.used p size member with ⟨a, d, i, block, _, hf⟩ | ⟨a, n, block, hf⟩
  · obtain ⟨low, high⟩ := block.inside heaped.pages
    obtain ⟨large, _⟩ := desc_fits (heaped.pages.valid block.page block.owner)
    exact ⟨a, 1, block.page, low, by omega, by omega⟩
  · have pos := (heaped.pages.run a n block.page).2.2
    have address := block.address
    refine ⟨a, n, block.page, by omega, ?_, hf⟩
    unfold pgSize arenaSize at *
    omega

end

/-- The same arenas, with other links and other counts. -/
@[grind cases] structure Alike (s s' : Store) : Prop where
  pages : s'.pages = s.pages
  desc : ∀ a, (s'.arena a).desc = (s.arena a).desc
  magic : ∀ a, (s'.arena a).magic = (s.arena a).magic

namespace Alike

theorem block (alike : Alike s s') : Block s' a d i x ↔ Block s a d i x := by
  constructor
  · rintro ⟨page, owner, index, address⟩
    rw [alike.pages] at page
    rw [alike.desc] at owner
    exact ⟨page, owner, index, address⟩
  · rintro ⟨page, owner, index, address⟩
    exact ⟨by rwa [alike.pages], by rwa [alike.desc], index, address⟩

theorem bigBlock (alike : Alike s s') : BigBlock s' a n p ↔ BigBlock s a n p := by
  constructor
  · rintro ⟨page, owner, address⟩
    rw [alike.pages] at page
    rw [alike.desc] at owner
    exact ⟨page, owner, address⟩
  · rintro ⟨page, owner, address⟩
    exact ⟨by rwa [alike.pages], by rwa [alike.desc], address⟩

theorem pagesOk (alike : Alike s s') (pages : Pages s) : Pages s' := by
  constructor <;> grind [update_apply]

end Alike

theorem alike_setArena {cells : Heap Elem} :
    Alike s ({ s with cells }.setArena a { s.arena a with freeCnt := count }) where
  pages := rfl
  desc b := by
    by_cases h : b = a
    · subst h
      simp [Store.setArena]
    · simp [Store.setArena, h]
  magic b := by
    by_cases h : b = a
    · subst h
      simp [Store.setArena]
    · simp [Store.setArena, h]

/-- One free list changes by a block, and with it the count of the arena the block is in. -/
theorem Heaped.recount (heap : Heaped s free handed) (block : Block s a d i x) {cells : Heap Elem}

    (lists : ∀ d' < descs.length, Reps cells (freeList d') ((update free d xs d').map .block))
    (counted : count = xs.countP (inPage a))
    (others : ∀ b, (b, 1) ∈ s.pages → b ≠ a → xs.countP (inPage b) = (free d).countP (inPage b))
    (listed : ∀ y ∈ xs, ∃ a i, Block s a d i y)
    (bigs : ∀ a n, BigBlock s a n (a + arenaSize) → (∃ size, (a + arenaSize, size) ∈ handed) →
      ∃ size, (a + arenaSize, size) ∈ handed')
    (used : ∀ p size, (p, size) ∈ handed' →
      (∃ a d' i, Block s a d' i p ∧ p ∉ update free d xs d' ∧ size ≤ (desc d').blockSize) ∨
        ∃ a n, BigBlock s a n p ∧ p + size ≤ a + pgSize * n)
    (once : (handed'.map Prod.fst).Nodup)
    (cover : ∀ a d' i y, Block s a d' i y → y ∈ update free d xs d' ∨
      ∃ size, (y, size) ∈ handed') :
    Heaped ({ s with cells }.setArena a { s.arena a with freeCnt := count })
      (update free d xs) handed' := by
  have alike : Alike s ({ s with cells }.setArena a { s.arena a with freeCnt := count }) :=
    alike_setArena
  constructor
  case pages => exact alike.pagesOk heap.pages
  case count =>
    intro b d' page owner
    rw [alike.desc] at owner
    by_cases h : b = a
    · subst h
      have kind : d' = d := some.inj (owner.symm.trans block.owner)
      subst kind
      rw [update_self]
      simpa [Store.setArena] using counted
    · have eq : (({ s with cells } : Store).setArena a
        { s.arena a with freeCnt := count }).arena b =
          s.arena b := update_of_ne h ..
      rw [eq, heap.count b d' page owner]
      by_cases kind : d' = d
      · subst kind
        rw [update_self, others b page h]
      · rw [update_of_ne kind]
  case big =>
    intro b n page owner
    rw [alike.desc] at owner
    have h : b ≠ a := by
      rintro rfl
      have := block.owner.symm.trans owner
      cases this
    have eq : (({ s with cells } : Store).setArena a { s.arena a with freeCnt := count }).arena b =
        s.arena b := update_of_ne h ..
    obtain ⟨size, mem⟩ := heap.big b n page owner
    rw [eq]
    exact ⟨size, bigs b n ⟨page, owner, rfl⟩ mem⟩
  case lists => exact lists
  case listed =>
    intro d' valid y mem
    by_cases kind : d' = d
    · subst kind
      rw [update_self] at mem
      obtain ⟨b, j, is⟩ := listed y mem
      exact ⟨b, j, alike.block.mpr is⟩
    · rw [update_of_ne kind] at mem
      obtain ⟨b, j, is⟩ := heap.listed d' valid y mem
      exact ⟨b, j, alike.block.mpr is⟩
  case used =>
    intro p size mem
    rcases used p size mem with ⟨b, d', j, is, rest⟩ | ⟨b, n, is, rest⟩
    · exact .inl ⟨b, d', j, alike.block.mpr is, rest⟩
    · exact .inr ⟨b, n, alike.bigBlock.mpr is, rest⟩
  case once => exact once
  case cover =>
    intro b d' j y is
    exact cover b d' j y (alike.block.mp is)

/-- The first block of a free list is handed out. -/
theorem wp_takeBlock (heap : Heaped s free handed) (hv : d < descs.length) {rest : List Nat}
    (front : free d = x :: rest) (hf : size ≤ (desc d).blockSize) :
    Wp (takeBlock d) (fun b s' => b = x ∧ s'.pages = s.pages ∧
      (∀ a, (s'.arena a).desc = (s.arena a).desc) ∧
      Heaped s' (update free d rest) ((x, size) :: handed)) s := by
  have listed : x ∈ free d := by simp [front]
  have once := heap.listed_once hv
  rw [front] at once
  have left := (nodup_cons.mp once).1
  obtain ⟨a, i, block⟩ := heap.listed d hv x listed
  have hr := heap.lists d hv
  rw [front, map_cons] at hr
  simp only [takeBlock, wp_bind, wp_onLists]
  refine (wp_listPopFront hr).mono ?_
  rintro _ cells ⟨rfl, list, eq⟩
  have block' : Block { s with cells } a d i x :=
    ⟨block.page, block.owner, block.index, block.address⟩
  have pages' : Pages { s with cells } :=
    ⟨heap.pages.apart, heap.pages.run, heap.pages.magic, heap.pages.small⟩
  simp only [listEntry, wp_pure, wp_blockToArena pages' block', wp_getArena, wp_setArena]
  have alike : Alike s ({ s with cells }.setArena a { s.arena a with
      freeCnt := (s.arena a).freeCnt - 1 }) := alike_setArena
  refine ⟨trivial, rfl, alike.desc, ?_⟩
  have h := block.inPage heap.pages
  have elsewhere : ∀ b, (b, 1) ∈ s.pages → b ≠ a → inPage b x = false := by
    intro b page ne
    rw [Bool.eq_false_iff]
    intro there
    rw [inPage_iff (heap.pages.run a 1 block.page).1] at h
    rw [inPage_iff (heap.pages.run b 1 page).1] at there
    have := heap.pages.disjoint page block.page (by simpa using ne)
    omega
  apply heap.recount block
  case lists =>
    apply relist heap.lists list eq
    apply own_cells heap
    intro y mem
    exact heap.listed d hv y (by simp [front, mem])
  case counted =>
    rw [heap.count a d block.page block.owner, front, countP_cons_of_pos h]
    rfl
  case others => grind
  case listed =>
    intro y mem
    exact heap.listed d hv y (by simp [front, mem])
  case bigs =>
    rintro b n _ ⟨size', mem⟩
    exact ⟨size', .tail _ mem⟩
  case used =>
    intro p size' mem
    rcases mem_cons.mp mem with new | old
    · cases new
      refine .inl ⟨a, d, i, block, ?_, hf⟩
      rwa [update_self]
    · grind
  case once =>
    rw [map_cons, nodup_cons]
    exact ⟨heap.not_used hv listed, heap.once⟩
  case cover => grind

/-! ### New pages -/

theorem Heaped.answered (heap : Heaped s free handed) (answers : List (Option Nat)) :
    Heaped { s with answers } free handed :=
  heap.keep rfl (fun _ _ _ => rfl) fun _ _ _ _ => ⟨rfl, rfl⟩

theorem wp_pallocGetMultiple {Q : Option Nat → Store → Prop}
    (fails : Q none { s with answers := s.answers.tail })
    (gives : 0 < n → ∀ a, s.Available n a →
      Q (some a) { s with answers := s.answers.tail, pages := (a, n) :: s.pages }) :
    Wp (pallocGetMultiple n) Q s := by
  unfold pallocGetMultiple
  simp only [wp_bind, wp_get]
  by_cases zero : n = 0
  · rw [if_pos zero]
    simpa only [wp_bind, wp_set, wp_pure] using fails
  · rw [if_neg zero]
    cases offered : s.offer n with
    | none => simpa only [wp_bind, wp_set, wp_pure] using fails
    | some a =>
      have ha := (filter_eq_some_iff.mp offered).2
      simpa only [wp_bind, wp_set, wp_pure] using
        gives (by omega) a (of_decide_eq_true ha)

/-- The store with a new run of pages, and in it a header. -/
def Store.add (s : Store) (a n : Nat) (header : Arena) (cells : Heap Elem)
    (answers : List (Option Nat)) : Store :=
  { s with cells, arena := update s.arena a header, pages := (a, n) :: s.pages, answers }

section
variable {header : Arena} {cells : Heap Elem} {answers : List (Option Nat)}

theorem available_ne (pages : Pages s) (ha : s.Available n a) (pos : 0 < n) {m : Nat}
    (page : (a', m) ∈ s.pages) : a' ≠ a := by
  rintro rfl
  have positive' := (pages.run a' m page).2.2
  have ne := ha.2.2.2 (a', m) page
  unfold pgSize at ne
  omega

theorem add_arena (pages : Pages s) (ha : s.Available n a) (pos : 0 < n) {m : Nat}
    (page : (a', m) ∈ s.pages) : (s.add a n header cells answers).arena a' = s.arena a' :=
  update_of_ne (available_ne pages ha pos page) ..

theorem add_pages (pages : Pages s) (ha : s.Available n a) (pos : 0 < n)
    (magic : header.magic = arenaMagic)
    (small : ∀ d, header.desc = some d → n = 1 ∧ d < descs.length) :
    Pages (s.add a n header cells answers) := by
  constructor
  case apart =>
    refine pairwise_cons.mpr ⟨fun run mem => ?_, pages.apart⟩
    exact ha.2.2.2 run mem
  case run =>
    intro b m page
    rcases mem_cons.mp page with new | old
    · cases new
      exact ⟨ha.1, ha.2.1, pos⟩
    · exact pages.run b m old
  case magic =>
    intro b m page
    rcases mem_cons.mp page with new | old
    · cases new
      simpa [Store.add] using magic
    · rw [add_arena pages ha pos old]
      exact pages.magic b m old
  case small =>
    intro b m d page owner
    rcases mem_cons.mp page with new | old
    · cases new
      exact small d (by simpa [Store.add] using owner)
    · rw [add_arena pages ha pos old] at owner
      exact pages.small b m d old owner

/-- Blocks of the old arenas, and those of a new one. -/
theorem add_block (pages : Pages s) (ha : s.Available n a) (pos : 0 < n) :
    Block (s.add a n header cells answers) a' d i x ↔ Block s a' d i x ∨
      (a' = a ∧ n = 1 ∧ header.desc = some d ∧ i < (desc d).blocksPerArena ∧ x =
        blockAt a d i) := by
  constructor
  · rintro ⟨page, owner, index, address⟩
    rcases mem_cons.mp page with new | old
    · cases new
      exact .inr ⟨rfl, rfl, by simpa [Store.add] using owner, index, address⟩
    · rw [add_arena pages ha pos old] at owner
      exact .inl ⟨old, owner, index, address⟩
  · rintro (⟨page, owner, index, address⟩ | ⟨rfl, rfl, owner, index, address⟩)
    · refine ⟨.tail _ page, ?_, index, address⟩
      rwa [add_arena pages ha pos page]
    · exact ⟨(.head _), by simpa [Store.add] using owner, index, address⟩

theorem add_bigBlock (pages : Pages s) (ha : s.Available n a) (pos : 0 < n) {m : Nat}
    (block : BigBlock s a' m p) : BigBlock (s.add a n header cells answers) a' m p := by
  refine ⟨.tail _ block.page, ?_, block.address⟩
  rw [add_arena pages ha pos block.page]
  exact block.owner

/-- A big block, with pages of its own. -/
theorem Heaped.addBig (heap : Heaped s free handed) (ha : s.Available n a) (pos : 0 < n)
    (hf : size + arenaSize ≤ pgSize * n) :
    Heaped (s.add a n { magic := arenaMagic, desc := none, freeCnt := n } s.cells answers) free
      ((a + arenaSize, size) :: handed) := by
  have block : ∀ b d i x, Block (s.add a n { magic := arenaMagic, desc := none, freeCnt := n }
      s.cells answers) b d i x ↔ Block s b d i x := by
    intro b d i x
    rw [add_block heap.pages ha pos]
    simp
  constructor
  case pages => exact add_pages heap.pages ha pos rfl (by simp)
  case count =>
    intro b d page owner
    rcases mem_cons.mp page with new | old
    · cases new
      simp [Store.add] at owner
    · rw [add_arena heap.pages ha pos old] at owner ⊢
      exact heap.count b d old owner
  case big =>
    intro b m page owner
    rcases mem_cons.mp page with new | old
    · cases new
      exact ⟨by simp [Store.add], size, (.head _)⟩
    · rw [add_arena heap.pages ha pos old] at owner ⊢
      obtain ⟨count, size', mem⟩ := heap.big b m old owner
      exact ⟨count, size', .tail _ mem⟩
  case lists => exact heap.lists
  case listed => grind
  case used =>
    intro p size' mem
    rcases mem_cons.mp mem with new | old
    · cases new
      refine .inr ⟨a, n, ⟨(.head _), by simp [Store.add], rfl⟩, by omega⟩
    · rcases heap.used p size' old with ⟨b, d, i, is, rest⟩ | ⟨b, m, is, rest⟩
      · exact .inl ⟨b, d, i, (block b d i p).mpr is, rest⟩
      · exact .inr ⟨b, m, add_bigBlock heap.pages ha pos is, rest⟩
  case once =>
    rw [map_cons, nodup_cons]
    refine ⟨fun mem => ?_, heap.once⟩
    obtain ⟨⟨p, size'⟩, used, eq⟩ := mem_map.mp mem
    obtain ⟨b, m, page, low, high, _⟩ := heap.used_inside used
    have ne := ha.2.2.2 (b, m) page
    dsimp only at eq ne
    unfold pgSize arenaSize at *
    omega
  case cover => grind

def freshArena (d : Nat) : Arena :=
  { magic := arenaMagic, desc := some d, freeCnt := (desc d).blocksPerArena }

/-- A new arena, all of whose blocks are on the free list. -/
theorem Heaped.addArena (heap : Heaped s free handed) (available : s.Available 1 a)
    (valid : d < descs.length) (empty : free d = [])
    (list : Reps cells (freeList d) ((blocksOf a d).map .block))
    (eq : s.cells.Same cells ((freeList d).cells ((blocksOf a d).map .block))) :
    Heaped (s.add a 1 (freshArena d) cells answers) (update free d (blocksOf a d)) handed := by
  have block : ∀ b d' i x, Block (s.add a 1 (freshArena d) cells answers) b d' i x ↔
      Block s b d' i x ∨ (b = a ∧ d' = d ∧ i < (desc d).blocksPerArena ∧ x = blockAt a d i) := by
    intro b d' i x
    rw [add_block heap.pages available (by omega)]
    constructor
    · rintro (old | ⟨rfl, _, kind, rest⟩)
      · exact .inl old
      · cases kind
        exact .inr ⟨rfl, rfl, rest⟩
    · rintro (old | ⟨rfl, rfl, rest⟩)
      · exact .inl old
      · exact .inr ⟨rfl, rfl, rfl, rest⟩
  have hf : ∀ x ∈ blocksOf a d, ∀ b m, (b, m) ∈ s.pages → x < b ∨ b + pgSize * m ≤ x := by
    intro x mem b m page
    have h := (inPage_iff available.1).mp (inPage_blocksOf valid available.1 mem)
    have ne := available.2.2.2 (b, m) page
    dsimp only at ne
    omega
  have hu : ∀ x ∈ blocksOf a d, ∀ d' < descs.length, x ∉ free d' := by
    intro x mem d' valid' listed
    obtain ⟨b, i, is⟩ := heap.listed d' valid' x listed
    have h := (inPage_iff (heap.pages.run b 1 is.page).1).mp (is.inPage heap.pages)
    have := hf x mem b 1 is.page
    omega
  have none_there : ∀ d' < descs.length, (free d').countP (inPage a) = 0 := by
    intro d' valid'
    rw [countP_eq_zero]
    intro x listed h
    obtain ⟨b, i, is⟩ := heap.listed d' valid' x listed
    have there := (inPage_iff (heap.pages.run b 1 is.page).1).mp (is.inPage heap.pages)
    have ne := available.2.2.2 (b, 1) is.page
    rw [inPage_iff available.1] at h
    dsimp only at ne
    omega
  constructor
  case pages =>
    apply add_pages heap.pages available (by omega) rfl
    rintro d' ⟨⟩
    exact ⟨rfl, valid⟩
  case count =>
    intro b d' page owner
    rcases mem_cons.mp page with new | old
    · cases new
      have kind : d = d' := by simpa [Store.add, freshArena] using owner
      subst kind
      rw [update_self]
      have whole : (blocksOf a d).countP (inPage a) = (blocksOf a d).length := by
        rw [countP_eq_length]
        intro x mem
        exact inPage_blocksOf valid available.1 mem
      rw [whole]
      simp [Store.add, freshArena, blocksOf]
    · rw [add_arena heap.pages available (by omega) old] at owner ⊢
      rw [heap.count b d' old owner]
      by_cases kind : d' = d
      · subst kind
        rw [update_self, empty, countP_nil, eq_comm, countP_eq_zero]
        intro x mem there
        rw [inPage_iff (heap.pages.run b 1 old).1] at there
        have := hf x mem b 1 old
        omega
      · rw [update_of_ne kind]
  case big =>
    intro b m page owner
    rcases mem_cons.mp page with new | old
    · cases new
      simp [Store.add, freshArena] at owner
    · rw [add_arena heap.pages available (by omega) old] at owner ⊢
      exact heap.big b m old owner
  case lists =>
    apply relist heap.lists list eq
    intro e mem
    rcases CList.mem_cells.mp mem with rfl | inner | rfl
    · exact .inl rfl
    · grind
    · exact .inr (.inl rfl)
  case listed =>
    intro d' valid' x listed
    by_cases kind : d' = d
    · subst kind
      rw [update_self] at listed
      obtain ⟨i, index, address⟩ := mem_blocksOf.mp listed
      exact ⟨a, i, (block a d' i x).mpr (.inr ⟨rfl, rfl, index, address⟩)⟩
    · grind
  case used =>
    intro p size' mem
    rcases heap.used p size' mem with ⟨b, d', i, is, out, rest⟩ | ⟨b, m, is, rest⟩
    · refine .inl ⟨b, d', i, (block b d' i p).mpr (.inl is), ?_, rest⟩
      by_cases kind : d' = d
      · subst kind
        rw [update_self]
        intro listed
        have h := (inPage_iff (heap.pages.run b 1 is.page).1).mp (is.inPage heap.pages)
        have := hf p listed b 1 is.page
        omega
      · rwa [update_of_ne kind]
    · exact .inr ⟨b, m, add_bigBlock heap.pages available (by omega) is, rest⟩
  case once => exact heap.once
  case cover =>
    intro b d' i x is
    rcases (block b d' i x).mp is with old | ⟨rfl, rfl, index, address⟩
    · grind
    · left
      rw [update_self]
      exact mem_blocksOf.mpr ⟨i, index, address⟩

end

/-! ### malloc -/

/-- An arena is there because some block of it is in use. -/
def Busy (s : Store) (handed : List (Nat × Nat)) (but : Nat → Prop) : Prop :=
  ∀ a d, (a, 1) ∈ s.pages → (s.arena a).desc = some d → but a ∨
    ∃ i < (desc d).blocksPerArena, ∃ size, (blockAt a d i, size) ∈ handed

/-- Old arenas are as busy as they were. -/
theorem Busy.add (hb : Busy s handed fun _ => False) (pages : Pages s) (ha : s.Available n a)
    (pos : 0 < n) {header : Arena} {cells : Heap Elem} {answers : List (Option Nat)}
    {but : Nat → Prop} (more : handed ⊆ handed') (new : ∀ d, header.desc = some d → but a) :
    Busy (s.add a n header cells answers) handed' but := by
  intro b d page owner
  rcases mem_cons.mp page with h | old
  · cases h
    exact .inl (new d (by simpa [Store.add] using owner))
  · rw [add_arena pages ha pos old] at owner
    rcases hb b d old owner with no | ⟨i, index, size, mem⟩
    · exact no.elim
    · exact .inr ⟨i, index, size, more mem⟩

theorem wp_mallocBig (heap : Heaped s free handed) (hb : Busy s handed fun _ => False)
    (limit : size + arenaSize ≤ 2 ^ 32) :
    Wp (mallocBig size) (fun found s' => Heaped s' free ((found.map (·, size)).toList ++ handed) ∧
      Busy s' ((found.map (·, size)).toList ++ handed) fun _ => False) s := by
  obtain ⟨count, hc⟩ : ∃ count, (size + arenaSize + pgSize - 1) % 2 ^ 32 / pgSize = count :=
    ⟨_, rfl⟩
  -- where the sum wraps around, the number of pages is 0
  have he : 0 < count → size + arenaSize ≤ pgSize * count := by
    unfold pgSize arenaSize at *
    omega
  unfold mallocBig
  dsimp only
  rw [hc, wp_bind]
  apply wp_pallocGetMultiple
  · rw [wp_pure]
    exact ⟨heap.answered _, hb⟩
  · intro pos a ha
    simp only [wp_bind, wp_setArena, wp_pure]
    refine ⟨heap.addBig ha pos (he pos), ?_⟩
    exact hb.add heap.pages ha pos (subset_cons_self _ _) (by simp)

/-- The blocks of a new arena go to the end of the free list, one by one. -/
theorem wp_pushBlocks (pages : Pages s) (page : (a, 1) ∈ s.pages)
    (owner : (s.arena a).desc = some d)
    (list : Reps s.cells (freeList d) []) :
    Wp (upto (fun i _ => do
        let b ← arenaToBlock a i
        onLists (listPushBack (freeList d) (.block b))) (desc d).blocksPerArena ())
      (fun _ s' => ∃ cells, s' = { s with cells } ∧
        Reps cells (freeList d) ((blocksOf a d).map .block) ∧
        s.cells.Same cells ((freeList d).cells ((blocksOf a d).map .block))) s := by
  have hv := pages.valid page owner
  apply Wp.upto (I := fun (k : Nat) (_ : Unit) (s' : Store) => ∃ cells, s' = { s with cells } ∧
    Reps cells (freeList d) (((range k).map (blockAt a d)).map .block) ∧
    s.cells.Same cells ((freeList d).cells ((blocksOf a d).map .block)))
  · exact ⟨s.cells, rfl, by simpa using list, .refl _ _⟩
  · rintro k index _ _ ⟨cells, rfl, list, eq⟩
    have pages' : Pages { s with cells } := ⟨pages.apart, pages.run, pages.magic, pages.small⟩
    rw [wp_bind, wp_arenaToBlock pages' page owner index, wp_onLists]
    have hf : Elem.block (blockAt a d k) ∉
        (freeList d).cells (((range k).map (blockAt a d)).map .block) := by
      intro mem
      have : ∃ i < k, blockAt a d i = blockAt a d k := by
        simpa [CList.mem_cells, freeList] using mem
      obtain ⟨i, lt, place⟩ := this
      have := blockAt_inj hv place
      omega
    refine (wp_listPushBack list hf).mono ?_
    rintro _ cells' ⟨list', same'⟩
    refine ⟨cells', rfl, ?_, eq.trans (same'.mono ?_)⟩
    · rw [range_succ, map_append, map_append]
      exact list'
    · intro e mem
      rw [CList.mem_cells]
      rcases mem_cons.mp mem with rfl | mem
      · right; left
        exact mem_map.mpr ⟨_, mem_blocksOf.mpr ⟨k, index, rfl⟩, rfl⟩
      · rcases CList.mem_cells.mp mem with rfl | inner | rfl
        · exact .inl rfl
        · right; left
          obtain ⟨x, is, rfl⟩ := mem_map.mp inner
          obtain ⟨i, lt, rfl⟩ := mem_map.mp is
          have := mem_range.mp lt
          exact mem_map.mpr ⟨_, mem_blocksOf.mpr ⟨i, by omega, rfl⟩, rfl⟩
        · exact .inr (.inr rfl)

theorem wp_refill (heap : Heaped s free handed) (hb : Busy s handed fun _ => False)
    (hv : d < descs.length) : Wp (refill d) (fun found s' => ∃ free', Heaped s' free' handed ∧
      (found = true → ∃ x rest, free' d = x :: rest ∧ Busy s' handed fun a => inPage a x = true) ∧
      (found = false → Busy s' handed fun _ => False)) s := by
  unfold refill
  simp only [wp_bind, wp_onLists, wp_listEmpty (heap.lists d hv)]
  cases now : free d with
  | cons x rest =>
    simp only [map_cons, reduceCtorEq, decide_false, Bool.false_eq_true, if_false, wp_pure]
    refine ⟨free, heap, fun _ => ⟨x, rest, now, fun a d' page owner => ?_⟩, by simp⟩
    exact .inr ((hb a d' page owner).resolve_left id)
  | nil =>
    simp only [map_nil, decide_true, if_true, wp_bind]
    apply wp_pallocGetMultiple
    · rw [wp_pure]
      exact ⟨free, heap.answered _, by simp, fun _ => hb⟩
    · intro _ a ha
      simp only [wp_bind, wp_setArena]
      have empty := heap.lists d hv
      rw [now, map_nil] at empty
      have pages : Pages (s.add a 1 (freshArena d) s.cells s.answers.tail) :=
        add_pages heap.pages ha (by omega) rfl (by rintro _ ⟨⟩; exact ⟨rfl, hv⟩)
      refine (wp_pushBlocks pages (.head _) (by simp [Store.add, freshArena]) empty).mono ?_
      rintro _ _ ⟨cells, rfl, list, eq⟩
      rw [wp_pure]
      refine ⟨update free d (blocksOf a d), heap.addArena ha hv now list eq,
        fun _ => ?_, by simp⟩
      have several := (desc_fits hv).2.2
      obtain ⟨k, more⟩ : ∃ k, (desc d).blocksPerArena = k + 1 :=
        ⟨(desc d).blocksPerArena - 1, by omega⟩
      have first : blocksOf a d = blockAt a d 0 :: (blocksOf a d).tail := by
        rw [blocksOf, more, range_succ_eq_map]
        rfl
      refine ⟨blockAt a d 0, (blocksOf a d).tail, by rw [update_self]; exact first, ?_⟩
      apply hb.add heap.pages ha (by omega) (List.Subset.refl _)
      intro _ _
      exact inPage_blocksOf hv ha.1 (by rw [first]; exact (.head _))

theorem wp_malloc (heap : Heaped s free handed) (hb : Busy s handed fun _ => False)
    (limit : size + arenaSize ≤ 2 ^ 32) : Wp (malloc size) (fun found s' => ∃ free',
      Heaped s' free' ((found.map (·, size)).toList ++ handed) ∧
      Busy s' ((found.map (·, size)).toList ++ handed) fun _ => False) s := by
  unfold malloc
  by_cases zero : size = 0
  · rw [if_pos zero, wp_pure]
    exact ⟨free, heap, hb⟩
  · rw [if_neg zero]
    cases found : descs.findIdx? (fun d => size ≤ d.blockSize) with
    | none =>
      apply (wp_mallocBig heap hb limit).mono
      intro _ s' after
      exact ⟨free, after⟩
    | some d =>
      obtain ⟨hv, hf, _⟩ := findIdx?_eq_some_iff_getElem.mp found
      have fits' : size ≤ (desc d).blockSize := by
        unfold desc
        rw [getD_eq_getElem _ _ hv]
        exact of_decide_eq_true hf
      dsimp only
      rw [wp_bind]
      apply (wp_refill heap hb hv).mono
      rintro more s' ⟨free', heaped', got, not⟩
      cases more with
      | false =>
        simp only [Bool.false_eq_true, if_false, wp_pure]
        exact ⟨free', heaped', not rfl⟩
      | true =>
        obtain ⟨x, rest, front, busy'⟩ := got rfl
        simp only [if_true, wp_map]
        apply (wp_takeBlock heaped' hv front fits').mono
        rintro _ s'' ⟨rfl, pages, descs, after⟩
        refine ⟨_, after, fun a d' page owner => .inr ?_⟩
        rw [pages] at page
        rw [descs] at owner
        rcases busy' a d' page owner with h | ⟨i, index, size', mem⟩
        · obtain ⟨b, i, block⟩ := heaped'.listed d hv _ (by rw [front]; exact (.head _))
          obtain ⟨rfl, rfl⟩ := block.of_inPage heaped'.pages page owner h
          exact ⟨i, block.index, size, by rw [← block.address]; exact (.head _)⟩
        · exact ⟨i, index, size', .tail _ mem⟩

end Pintos.Malloc
