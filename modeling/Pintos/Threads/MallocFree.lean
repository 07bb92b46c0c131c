import Pintos.Threads.MallocArenas

/-!
# free

A freed block goes to the front of its free list. When it was the last block of its arena in use,
all blocks of the arena leave the list before its page is given back.
-/

namespace Pintos.Malloc

open Pintos.Paging (pgSize pgOfs pgOfs_eq)
open Pintos.LinkedList Prog Machine Function List

variable {s s' : Store} {free free' : Nat → List Nat} {handed handed' : List (Nat × Nat)}
  {a a' d d' i j n p q x lo hi size : Nat}

/-! ### Giving back pages -/

theorem Pages.nodup (pages : Pages s) : s.pages.Nodup := by
  apply pages.apart.imp_of_mem
  rintro ⟨a, n⟩ ⟨b, m⟩ mem _ ne eq
  cases eq
  have pos := (pages.run a n mem).2.2
  unfold Apart pgSize at ne
  omega

def InRun (a n x : Nat) : Prop := a ≤ x ∧ x < a + pgSize * n

theorem Heaped.dropRun (heap : Heaped s free handed) (page : (a, n) ∈ s.pages)
    (pages : s'.pages = s.pages.erase (a, n))
    (arena : ∀ b m, (b, m) ∈ s.pages → b ≠ a → s'.arena b = s.arena b)
    (lists : ∀ d < descs.length, Reps s'.cells (freeList d) ((free' d).map .block))
    (listed : ∀ d < descs.length, ∀ x, x ∈ free' d ↔ x ∈ free d ∧ ¬ InRun a n x)
    (counts : ∀ b d, (b, 1) ∈ s.pages → b ≠ a → d < descs.length →
      (free' d).countP (inPage b) = (free d).countP (inPage b))
    (used : ∀ p size, (p, size) ∈ handed' ↔ (p, size) ∈ handed ∧ ¬ InRun a n p)
    (once : (handed'.map Prod.fst).Nodup) : Heaped s' free' handed' := by
  have hk : ∀ b m, (b, m) ∈ s'.pages ↔ (b, m) ∈ s.pages ∧ b ≠ a := by
    intro b m
    rw [pages, heap.pages.nodup.mem_erase_iff]
    constructor
    · rintro ⟨ne, mem⟩
      refine ⟨mem, ?_⟩
      rintro rfl
      exact ne (by rw [heap.pages.unique mem page])
    · rintro ⟨mem, ne⟩
      exact ⟨by simp [ne], mem⟩
  have outside : ∀ b m y, (b, m) ∈ s.pages → b ≠ a → InRun b m y → ¬ InRun a n y := by
    intro b m y mem ne hi inside'
    have := heap.pages.disjoint mem page (by simp [ne])
    unfold InRun at *
    omega
  have block : ∀ b d i y, Block s' b d i y ↔ Block s b d i y ∧ b ≠ a := by
    intro b d i y
    constructor
    · rintro ⟨mem, owner, index, address⟩
      obtain ⟨mem, ne⟩ := (hk b 1).mp mem
      rw [arena b 1 mem ne] at owner
      exact ⟨⟨mem, owner, index, address⟩, ne⟩
    · rintro ⟨⟨mem, owner, index, address⟩, ne⟩
      exact ⟨(hk b 1).mpr ⟨mem, ne⟩, by rwa [arena b 1 mem ne], index, address⟩
  have inRun : ∀ b d i y, Block s b d i y → InRun b 1 y := by
    intro b d i y is
    obtain ⟨low, high⟩ := is.inside heap.pages
    obtain ⟨large, _⟩ := desc_fits (heap.pages.valid is.page is.owner)
    unfold InRun
    omega
  constructor
  case pages =>
    constructor
    case apart => rw [pages]; exact heap.pages.apart.erase _
    case run => exact fun b m mem => heap.pages.run b m ((hk b m).mp mem).1
    case magic => grind
    case small => grind
  case count => grind
  case big =>
    intro b m mem owner
    obtain ⟨mem, ne⟩ := (hk b m).mp mem
    rw [arena b m mem ne] at owner ⊢
    obtain ⟨count, size, handedOut⟩ := heap.big b m mem owner
    refine ⟨count, size, (used _ size).mpr ⟨handedOut, outside b m _ mem ne ?_⟩⟩
    have pos := (heap.pages.run b m mem).2.2
    unfold InRun pgSize arenaSize
    omega
  case lists => exact lists
  case listed =>
    intro d hv y mem
    obtain ⟨old, out⟩ := (listed d hv y).mp mem
    obtain ⟨b, i, is⟩ := heap.listed d hv y old
    refine ⟨b, i, (block b d i y).mpr ⟨is, ?_⟩⟩
    rintro rfl
    rw [← heap.pages.unique is.page page] at out
    exact out (inRun b d i y is)
  case used =>
    intro p size mem
    obtain ⟨old, out⟩ := (used p size).mp mem
    rcases heap.used p size old with ⟨b, d, i, is, unlisted, fits⟩ | ⟨b, m, is, fits⟩
    · refine .inl ⟨b, d, i, (block b d i p).mpr ⟨is, ?_⟩, ?_, fits⟩
      · rintro rfl
        rw [← heap.pages.unique is.page page] at out
        exact out (inRun b d i p is)
      · intro still
        exact unlisted ((listed d (heap.pages.valid is.page is.owner) p).mp still).1
    · have ne : b ≠ a := by
        rintro rfl
        rw [← heap.pages.unique is.page page] at out
        apply out
        have pos := (heap.pages.run b m is.page).2.2
        rw [is.address]
        unfold InRun pgSize arenaSize
        omega
      refine .inr ⟨b, m, ⟨(hk b m).mpr ⟨is.page, ne⟩, ?_, is.address⟩, fits⟩
      rw [arena b m is.page ne]
      exact is.owner
  case once => exact once
  case cover =>
    intro b d i y is
    obtain ⟨old, ne⟩ := (block b d i y).mp is
    have out := outside b 1 y old.page ne (inRun b d i y old)
    rcases heap.cover b d i y old with mem | ⟨size, mem⟩
    · exact .inl ((listed d (heap.pages.valid old.page old.owner) y).mpr ⟨mem, out⟩)
    · exact .inr ⟨size, (used y size).mpr ⟨mem, out⟩⟩

/-! ### A block is freed -/

theorem overwrite_arena (clear : Clear s free lo hi) (bytes : Bytes) (page : (a, n) ∈ s.pages) :
    (s.overwrite lo hi bytes).arena a = s.arena a := by
  have := clear.headers a n page
  show (if _ then _ else _) = _
  rw [if_neg]
  unfold arenaSize at *
  omega

theorem mem_drop (once : (handed.map Prod.fst).Nodup) :
    (p, size) ∈ Blocks.drop handed (some q) ↔ (p, size) ∈ handed ∧ p ≠ q := by
  simp only [Blocks.drop]
  induction handed with
  | nil => simp
  | cons h rest ih => grind

theorem drop_once (once : (handed.map Prod.fst).Nodup) (block : Option Nat) :
    ((Blocks.drop handed block).map Prod.fst).Nodup := by
  cases block with
  | none => exact once
  | some b => exact once.sublist ((eraseP_sublist).map Prod.fst)

/-- A block in use goes to the front of the free list. -/
theorem Heaped.put (heap : Heaped s free handed) (block : Block s a d i x) (used : x ∉ free d)
    {cells : Heap Elem} (list : Reps cells (freeList d) ((x :: free d).map .block))
    (eq : s.cells.Same cells (.block x :: (freeList d).cells ((free d).map .block))) :
    Heaped ({ s with cells }.setArena a { s.arena a with freeCnt := (s.arena a).freeCnt + 1 })
      (update free d (x :: free d)) (Blocks.drop handed (some x)) := by
  have valid := heap.pages.valid block.page block.owner
  have h := block.inPage heap.pages
  have listed : ∀ y ∈ x :: free d, ∃ a i, Block s a d i y := by grind
  apply heap.recount block
  case lists =>
    apply relist heap.lists list eq
    intro e mem
    apply own_cells heap listed
    rw [CList.mem_cells]
    rcases mem_cons.mp mem with rfl | mem
    · exact .inr (.inl (by simp))
    · rcases CList.mem_cells.mp mem with is | inner | is
      · exact .inl is
      · exact .inr (.inl (by rw [map_cons]; exact .tail _ inner))
      · exact .inr (.inr is)
  case counted =>
    rw [heap.count a d block.page block.owner, countP_cons_of_pos h]
  case others =>
    intro b page ne
    rw [countP_cons_of_neg]
    intro there
    rw [inPage_iff (heap.pages.run a 1 block.page).1] at h
    rw [inPage_iff (heap.pages.run b 1 page).1] at there
    have := heap.pages.disjoint page block.page (by simpa using ne)
    omega
  case listed => exact listed
  case bigs =>
    rintro b n big ⟨size, mem⟩
    refine ⟨size, (mem_drop heap.once).mpr ⟨mem, ?_⟩⟩
    intro place
    have ha := (heap.pages.run a 1 block.page).1
    have aligned' := (heap.pages.run b n big.page).1
    rw [inPage_iff ha] at h
    have eq : b = a := by
      unfold pgSize arenaSize at *
      omega
    subst eq
    have := block.owner.symm.trans big.owner
    cases this
  case used =>
    intro p size mem
    obtain ⟨old, ne⟩ := (mem_drop heap.once).mp mem
    rcases heap.used p size old with ⟨b, d', j, is, hu, rest⟩ | big
    · grind
    · exact .inr big
  case once => exact drop_once heap.once (some x)
  case cover =>
    intro b d' j y is
    by_cases freed : y = x
    · subst freed
      obtain ⟨rfl, rfl, rfl⟩ := block.unique heap.pages is
      left
      rw [update_self]
      exact (.head _)
    · rcases heap.cover b d' j y is with still | ⟨size, mem⟩
      · grind
      · exact .inr ⟨size, (mem_drop heap.once).mpr ⟨mem, freed⟩⟩

/-! ### An arena is given back -/

/-- The free list without the first `k` blocks of an arena. -/
def without (xs : List Nat) (a d k : Nat) : List Nat :=
  xs.filter fun x => decide (∀ i < k, x ≠ blockAt a d i)

theorem without_succ (xs : List Nat) (a d k : Nat) :
    without xs a d (k + 1) = (without xs a d k).filter (· ≠ blockAt a d k) := by
  unfold without
  rw [filter_filter]
  apply filter_congr
  intro x _
  rw [← Bool.decide_and, decide_eq_decide]
  constructor
  · intro all
    exact ⟨all k (by omega), fun i lt => all i (by omega)⟩
  · grind

/-- What is left of a list without repetitions when one element is taken out. -/
theorem filter_ne_of_split {xs ys zs : List Nat} (once : xs.Nodup) (split : xs = ys ++ x :: zs) :
    xs.filter (· ≠ x) = ys ++ zs := by
  subst split
  rw [nodup_append] at once
  obtain ⟨_, right, ne⟩ := once
  have left : ys.filter (· ≠ x) = ys := by
    rw [filter_eq_self]
    intro y mem
    simpa using ne y mem x (.head _)
  have behind : zs.filter (· ≠ x) = zs := by
    rw [filter_eq_self]
    intro y mem
    have := (nodup_cons.mp right).1
    simp only [decide_eq_true_eq]
    rintro rfl
    exact this mem
  rw [filter_append, left, filter_cons_of_neg (by simp), behind]

theorem wp_removeBlocks (heap : Heaped s free handed) (page : (a, 1) ∈ s.pages)
    (owner : (s.arena a).desc = some d) (all : ∀ x ∈ blocksOf a d, x ∈ free d) :
    Wp (upto (fun i _ => do
        let b ← arenaToBlock a i
        let _ ← onLists (listRemove (.block b))
        pure ()) (desc d).blocksPerArena ())
      (fun _ s' => ∃ cells, s' = { s with cells } ∧ Reps cells (freeList d)
          ((without (free d) a d (desc d).blocksPerArena).map .block) ∧
        s.cells.Same cells ((freeList d).cells ((free d).map .block))) s := by
  have hv := heap.pages.valid page owner
  apply Wp.upto (I := fun (k : Nat) (_ : Unit) (s' : Store) => ∃ cells, s' = { s with cells } ∧
    Reps cells (freeList d) ((without (free d) a d k).map .block) ∧
    s.cells.Same cells ((freeList d).cells ((free d).map .block)))
  · refine ⟨s.cells, rfl, ?_, .refl _ _⟩
    have whole : without (free d) a d 0 = free d := by simp [without]
    rw [whole]
    exact heap.lists d hv
  · rintro k index _ _ ⟨cells, rfl, list, eq⟩
    have pages : Pages { s with cells } :=
      ⟨heap.pages.apart, heap.pages.run, heap.pages.magic, heap.pages.small⟩
    have mem : blockAt a d k ∈ without (free d) a d k := by
      refine mem_filter.mpr ⟨all _ (mem_blocksOf.mpr ⟨k, index, rfl⟩), ?_⟩
      rw [decide_eq_true_iff]
      intro i lt place
      have := blockAt_inj hv place
      omega
    obtain ⟨ys, zs, split⟩ := append_of_mem mem
    have once : (without (free d) a d k).Nodup := (heap.listed_once hv).filter _
    rw [split, map_append, map_cons] at list
    simp only [wp_bind, wp_arenaToBlock pages page owner index, wp_onLists, wp_pure]
    refine (wp_listRemove list).mono ?_
    rintro _ cells' ⟨_, list', same'⟩
    refine ⟨cells', rfl, ?_, eq.trans (same'.mono ?_)⟩
    · rw [without_succ, filter_ne_of_split once split, map_append]
      exact list'
    · intro e hi
      rw [CList.mem_cells] at hi ⊢
      rcases hi with is | inner | is
      · exact .inl is
      · right; left
        rw [← map_append] at inner
        obtain ⟨y, member', rfl⟩ := mem_map.mp inner
        apply mem_map_of_mem
        have : y ∈ without (free d) a d k := by grind
        exact (mem_filter.mp this).1
      · exact .inr (.inr is)

/-- The blocks of a free list in a page are those of the arena there. -/
theorem Heaped.listed_in (heap : Heaped s free handed) (page : (a, 1) ∈ s.pages)
    (owner : (s.arena a).desc = some d) (hv : d' < descs.length) (hl : x ∈ free d')
    (h : inPage a x = true) : d' = d ∧ x ∈ blocksOf a d := by
  obtain ⟨b, i, block⟩ := heap.listed d' hv x hl
  obtain ⟨rfl, rfl⟩ := block.of_inPage heap.pages page owner h
  exact ⟨rfl, mem_blocksOf.mpr ⟨i, block.index, block.address⟩⟩

/-- No block of an arena is in use when all are on the free list. -/
theorem Heaped.none_used (heap : Heaped s free handed) (page : (a, 1) ∈ s.pages)
    (owner : (s.arena a).desc = some d) (all : ∀ x ∈ blocksOf a d, x ∈ free d)
    (mem : (p, size) ∈ handed) : ¬ InRun a 1 p := by
  intro hi
  have ha := (heap.pages.run a 1 page).1
  have h : inPage a p = true := by
    rw [inPage_iff ha]
    unfold InRun at hi
    omega
  rcases heap.used p size mem with ⟨b, d', i, block, hu, _⟩ | ⟨b, n, block, _⟩
  · obtain ⟨rfl, rfl⟩ := block.of_inPage heap.pages page owner h
    exact hu (all p (mem_blocksOf.mpr ⟨i, block.index, block.address⟩))
  · have aligned' := (heap.pages.run b n block.page).1
    have address := block.address
    unfold InRun at hi
    have eq : b = a := by
      unfold pgSize arenaSize at *
      omega
    subst eq
    have := block.owner.symm.trans owner
    cases this

def Store.freed (s : Store) (a n : Nat) : Store :=
  { s.overwrite a (a + pgSize * n) poison with pages := s.pages.erase (a, n) }

theorem wp_pallocFreeMultiple (ha : a % pgSize = 0) (page : (a, n) ∈ s.pages)
    {Q : Unit → Store → Prop} (after : Q () (s.freed a n)) : Wp (pallocFreeMultiple a n) Q s := by
  unfold pallocFreeMultiple
  simp only [wp_bind, wp_assert, wp_get, wp_set]
  exact ⟨by rw [pgOfs_eq]; exact ha, page, after⟩

/-- Links outside a run of pages are not overwritten with it. -/
theorem overwrite_cells {bytes : Bytes} (e : Elem)
    (ne : ∀ x, e = .block x → x + linkSize ≤ lo ∨ hi ≤ x) :
    (s.overwrite lo hi bytes).cells.prev e = s.cells.prev e ∧
      (s.overwrite lo hi bytes).cells.next e = s.cells.next e := by
  cases e with
  | head | tail => exact ⟨rfl, rfl⟩
  | block x =>
    have out : ¬ (x < hi ∧ lo < x + linkSize) := by
      have := ne x rfl
      omega
    exact ⟨if_neg out, if_neg out⟩

theorem Pages.freed_arena (pages : Pages s) {m : Nat} (page : (a, n) ∈ s.pages)
    (ne : (a', m) ∈ s.pages) (differ : a' ≠ a) : (s.freed a n).arena a' = s.arena a' := by
  have pos := (pages.run a' m ne).2.2
  have := pages.disjoint ne page (by simp [differ])
  show (if _ then _ else _) = _
  rw [if_neg]
  unfold pgSize arenaSize at *
  omega

theorem wp_freeArena (heap : Heaped s free handed) (hb : Busy s handed fun b => b = a)
    (page : (a, 1) ∈ s.pages) (owner : (s.arena a).desc = some d)
    (full : (desc d).blocksPerArena ≤ (s.arena a).freeCnt) :
    Wp (freeArena a d) (fun _ s' => ∃ free', Heaped s' free' handed ∧
      Busy s' handed fun _ => False) s := by
  have hv := heap.pages.valid page owner
  have ha := (heap.pages.run a 1 page).1
  obtain ⟨most, all⟩ := all_of_countP (a := a) (d := d) (heap.listed_once hv)
    fun x hl h => (heap.listed_in page owner hv hl h).2
  rw [← heap.count a d page owner] at most all
  have all := all full
  unfold freeArena
  simp only [wp_bind, wp_getArena, wp_assert]
  refine ⟨by omega, (wp_removeBlocks heap page owner all).mono ?_⟩
  rintro _ _ ⟨cells, rfl, list, eq⟩
  have page' : (a, 1) ∈ ({ s with cells } : Store).pages := page
  apply wp_pallocFreeMultiple ha page'
  have lists := relist heap.lists list eq (own_cells heap (heap.listed d hv))
  have left : ∀ d' < descs.length, ∀ x,
      x ∈ update free d (without (free d) a d (desc d).blocksPerArena) d' ↔
        x ∈ free d' ∧ inPage a x = false := by
    intro d' valid' x
    by_cases kind : d' = d
    · subst kind
      rw [update_self, without, mem_filter, decide_eq_true_iff]
      refine and_congr_right fun hl => ?_
      constructor
      · intro none
        rw [Bool.eq_false_iff]
        intro h
        obtain ⟨i, index, place⟩ := mem_blocksOf.mp (heap.listed_in page owner hv hl h).2
        exact none i index place
      · rintro out i index rfl
        rw [inPage_blocksOf hv ha (mem_blocksOf.mpr ⟨i, index, rfl⟩)] at out
        cases out
    · rw [update_of_ne kind]
      refine ⟨fun hl => ⟨hl, ?_⟩, And.left⟩
      rw [Bool.eq_false_iff]
      intro h
      exact kind (heap.listed_in page owner valid' hl h).1
  have elsewhere : ∀ x, inPage a x = false → (∃ b d' i, Block s b d' i x) →
      x + linkSize ≤ a ∨ a + pgSize * 1 ≤ x := by
    rintro x out ⟨b, d', i, block⟩
    have differ : b ≠ a := by
      rintro rfl
      rw [block.inPage heap.pages] at out
      cases out
    obtain ⟨low, high⟩ := block.inside heap.pages
    obtain ⟨large, _⟩ := desc_fits (heap.pages.valid block.page block.owner)
    have := heap.pages.disjoint block.page page (by simpa using differ)
    unfold linkSize at *
    omega
  refine ⟨update free d (without (free d) a d (desc d).blocksPerArena), ?_, ?_⟩
  · refine heap.dropRun page ?pages ?arena ?lists ?hl ?counts ?used heap.once
    case pages => rfl
    case arena =>
      intro b m ne differ
      exact heap.pages.freed_arena page ne differ
    case lists =>
      intro d' valid'
      apply (lists d' valid').agree
      intro e mem
      apply overwrite_cells
      rintro x rfl
      have inner : x ∈ update free d (without (free d) a d (desc d).blocksPerArena) d' := by
        simpa [CList.mem_cells, freeList] using mem
      obtain ⟨hl, out⟩ := (left d' valid' x).mp inner
      obtain ⟨b, i, block⟩ := heap.listed d' valid' x hl
      exact elsewhere x out ⟨b, d', i, block⟩
    case hl =>
      intro d' valid' x
      rw [left d' valid' x, Bool.eq_false_iff, ne_eq, inPage_iff ha, InRun, Nat.mul_one]
    case counts =>
      intro b d' ne differ valid'
      by_cases kind : d' = d
      · subst kind
        rw [update_self, without, countP_filter]
        apply countP_congr
        intro x hl
        rw [Bool.and_eq_true, decide_eq_true_iff]
        refine ⟨And.left, fun there => ⟨there, ?_⟩⟩
        rintro i index rfl
        have h := inPage_blocksOf hv ha (mem_blocksOf.mpr ⟨i, index, rfl⟩)
        rw [inPage_iff ha] at h
        rw [inPage_iff (heap.pages.run b 1 ne).1] at there
        have := heap.pages.disjoint ne page (by simpa using differ)
        omega
      · rw [update_of_ne kind]
    case used =>
      intro p size
      exact ⟨fun mem => ⟨mem, heap.none_used page owner all mem⟩, And.left⟩
  · intro b d' mem owner'
    have once := heap.pages.nodup
    have hk : (b, 1) ∈ s.pages ∧ b ≠ a := by
      obtain ⟨differ, mem⟩ := once.mem_erase_iff.mp mem
      exact ⟨mem, by simpa using differ⟩
    rw [show ((Store.freed { s with cells } a 1).arena b) = s.arena b from
      heap.pages.freed_arena page hk.1 hk.2] at owner'
    rcases hb b d' hk.1 owner' with is | found
    · exact absurd is hk.2
    · exact .inr found

/-! ### free -/

/-- The state of the heap between calls. -/
def Tidy (s : Store) (handed : List (Nat × Nat)) : Prop :=
  ∃ free, Heaped s free handed ∧ Busy s handed fun _ => False

/-- Only the arena of the block that is freed may have lost its last block. -/
theorem Busy.drop (hb : Busy s handed fun _ => False) (heap : Heaped s free handed)
    (block : Block s a d i x) (alike : Alike s s') :
    Busy s' (Blocks.drop handed (some x)) fun b => b = a := by
  intro b d' page owner
  rw [alike.pages] at page
  rw [alike.desc] at owner
  by_cases h : b = a
  · exact .inl h
  · rcases hb b d' page owner with no | ⟨j, index, size, mem⟩
    · exact no.elim
    · refine .inr ⟨j, index, size, (mem_drop heap.once).mpr ⟨mem, ?_⟩⟩
      intro eq
      exact h (block.unique heap.pages ⟨page, owner, index, eq.symm⟩).1.symm

/-- An arena that is not full of free blocks has one in use. -/
theorem Heaped.busy (heap : Heaped s free handed) (hb : Busy s handed fun b => b = a)
    (page : (a, 1) ∈ s.pages) (owner : (s.arena a).desc = some d)
    (used : (s.arena a).freeCnt < (desc d).blocksPerArena) : Busy s handed fun _ => False := by
  intro b d' page' owner'
  rcases hb b d' page' owner' with rfl | found
  · have kind : d' = d := Option.some.inj (owner'.symm.trans owner)
    subst kind
    have hv := heap.pages.valid page owner
    have missing : ∃ i < (desc d').blocksPerArena, blockAt b d' i ∉ free d' := by
      by_contra all
      push Not at all
      have := le_countP hv (heap.pages.run b 1 page).1 all
      rw [← heap.count b d' page owner] at this
      omega
    obtain ⟨i, index, hu⟩ := missing
    rcases heap.cover b d' i _ ⟨page, owner, index, rfl⟩ with hl | ⟨size, mem⟩
    · exact absurd hl hu
    · exact .inr ⟨i, index, size, mem⟩
  · exact .inr found

theorem wp_freeSmall (heap : Heaped s free handed) (hb : Busy s handed fun _ => False)
    (block : Block s a d i x) (used : x ∉ free d) :
    Wp (Malloc.free (some x)) (fun _ s' => Tidy s' (Blocks.drop handed (some x))) s := by
  have hv := heap.pages.valid block.page block.owner
  have clear := heap.clear_block block used
  have wiped := heap.overwrite clear poison
  have arena := overwrite_arena clear poison block.page
  have block' : Block (s.overwrite x (x + (desc d).blockSize) poison) a d i x :=
    ⟨block.page, by rw [arena]; exact block.owner, block.index, block.address⟩
  have hf : Elem.block x ∉ (freeList d).cells ((free d).map .block) := by
    simpa [CList.mem_cells, freeList] using used
  have busy' : Busy (s.overwrite x (x + (desc d).blockSize) poison) handed fun _ => False := by
    intro b d' page owner
    rw [overwrite_arena clear poison page] at owner
    exact hb b d' page owner
  simp only [Malloc.free, wp_bind, wp_blockToArena heap.pages block, wp_getArena, block.owner,
    wp_get, wp_set, wp_onLists]
  refine (wp_listPushFront (wiped.lists d hv) hf).mono ?_
  rintro _ cells ⟨list, eq⟩
  simp only [wp_setArena]
  have put := wiped.put block' used list eq
  generalize s.overwrite x (x + (desc d).blockSize) poison = w at *
  have alike : Alike w ({ w with cells }.setArena a { w.arena a with
      freeCnt := (w.arena a).freeCnt + 1 }) := alike_setArena
  have nearly := busy'.drop wiped block' alike
  have owner := (alike.desc a).trans block'.owner
  have count : (({ w with cells }.setArena a { w.arena a with
      freeCnt := (w.arena a).freeCnt + 1 }).arena a).freeCnt = (w.arena a).freeCnt + 1 := by
    simp [Store.setArena]
  split_ifs with full
  · exact wp_freeArena put nearly block'.page owner (by rw [count]; exact full)
  · rw [wp_pure]
    exact ⟨_, put, put.busy nearly block'.page owner (by rw [count]; omega)⟩

theorem wp_freeBig (heap : Heaped s free handed) (hb : Busy s handed fun _ => False)
    (block : BigBlock s a n p) :
    Wp (Malloc.free (some p)) (fun _ s' => Tidy s' (Blocks.drop handed (some p))) s := by
  obtain ⟨aligned, _, pos⟩ := heap.pages.run a n block.page
  have count := (heap.big a n block.page block.owner).1
  simp only [Malloc.free, wp_bind, wp_blockToArena_big heap.pages block, wp_getArena, block.owner,
    count]
  apply wp_pallocFreeMultiple aligned block.page
  have hi : InRun a n p := by
    rw [block.address]
    unfold InRun pgSize arenaSize
    omega
  -- blocks of arenas are in other pages
  have hs : ∀ b d i x, Block s b d i x → x + linkSize ≤ a ∨ a + pgSize * n ≤ x := by
    intro b d i x ne
    obtain ⟨low, high⟩ := ne.inside heap.pages
    obtain ⟨large, _⟩ := desc_fits (heap.pages.valid ne.page ne.owner)
    have differ : (b, 1) ≠ (a, n) := by grind
    have := heap.pages.disjoint ne.page block.page differ
    unfold linkSize at *
    omega
  have only : ∀ q size, (q, size) ∈ handed → InRun a n q → q = p := by
    intro q size mem hi
    unfold InRun at hi
    rcases heap.used q size mem with ⟨b, d, i, ne, _⟩ | ⟨b, m, ne, _⟩
    · have := hs b d i q ne
      unfold linkSize at this
      omega
    · have positive' := (heap.pages.run b m ne.page).2.2
      have address := ne.address
      by_cases eq : b = a
      · rw [address, block.address, eq]
      · have := heap.pages.disjoint ne.page block.page (by simp [eq])
        unfold pgSize arenaSize at *
        omega
  refine ⟨free, ?_, ?_⟩
  · refine heap.dropRun block.page ?pages ?arena ?lists ?hl (fun _ _ _ _ _ => rfl) ?used
      (drop_once heap.once _)
    case pages => rfl
    case arena =>
      intro b m ne differ
      exact heap.pages.freed_arena block.page ne differ
    case lists =>
      intro d hv
      apply (heap.lists d hv).agree
      intro e mem
      apply overwrite_cells
      rintro x rfl
      have hl : x ∈ free d := by simpa [CList.mem_cells, freeList] using mem
      obtain ⟨b, i, ne⟩ := heap.listed d hv x hl
      exact hs b d i x ne
    case hl =>
      intro d hv x
      refine ⟨fun hl => ⟨hl, ?_⟩, And.left⟩
      obtain ⟨b, i, ne⟩ := heap.listed d hv x hl
      have := hs b d i x ne
      unfold InRun linkSize at *
      omega
    case used =>
      intro q size
      rw [mem_drop heap.once]
      refine and_congr_right fun mem => ?_
      constructor
      · exact fun differ inRun => differ (only q size mem inRun)
      · rintro out rfl
        exact out hi
  · intro b d mem owner
    obtain ⟨differ, still⟩ := heap.pages.nodup.mem_erase_iff.mp mem
    have ha : b ≠ a := by grind
    rw [heap.pages.freed_arena block.page still ha] at owner
    rcases hb b d still owner with no | ⟨i, index, size, used⟩
    · exact no.elim
    · refine .inr ⟨i, index, size, (mem_drop heap.once).mpr ⟨used, ?_⟩⟩
      rintro rfl
      have := hs b d i _ ⟨still, owner, index, rfl⟩
      unfold InRun linkSize at *
      omega

theorem wp_free (ht : Tidy s handed) (mem : (p, size) ∈ handed) :
    Wp (Malloc.free (some p)) (fun _ s' => Tidy s' (Blocks.drop handed (some p))) s := by
  obtain ⟨free, heap, hb⟩ := ht
  rcases heap.used p size mem with ⟨a, d, i, block, used, _⟩ | ⟨a, n, block, _⟩
  · exact wp_freeSmall heap hb block used
  · exact wp_freeBig heap hb block

/-! ### Sequences of calls -/

section
variable (ht : Tidy s handed)
include ht

theorem Tidy.overwrite (clear : ∀ free, Heaped s free handed →
    Clear s free lo hi) (bytes : Bytes) : Tidy (s.overwrite lo hi bytes) handed := by
  obtain ⟨free, heap, hb⟩ := ht
  have clear := clear free heap
  refine ⟨free, heap.overwrite clear bytes, fun b d page owner => ?_⟩
  rw [overwrite_arena clear bytes page] at owner
  exact hb b d page owner

theorem wp_malloc_tidy (limit : size + arenaSize ≤ 2 ^ 32) :
    Wp (malloc size) (fun found s' => Tidy s' ((found.map (·, size)).toList ++ handed)) s := by
  obtain ⟨free, heap, hb⟩ := ht
  exact wp_malloc heap hb limit

theorem wp_calloc {b : Nat} (limit : a * b + arenaSize ≤ 2 ^ 32) :
    Wp (calloc a b) (fun found s' => Tidy s' ((found.map (·, a * b)).toList ++ handed) ∧
      ∀ p, found = some p → ∀ x, p ≤ x → x < p + a * b → s'.byte x = 0) s := by
  have exact_size : a * b % 2 ^ 32 = a * b := Nat.mod_eq_of_lt (by unfold arenaSize at limit; omega)
  unfold calloc
  dsimp only
  rw [exact_size]
  split_ifs with overflow
  · rw [wp_pure]
    exact ⟨ht, by simp⟩
  · rw [wp_bind]
    apply (wp_malloc_tidy ht limit).mono
    intro found s' after
    cases found with
    | none =>
      rw [wp_pure]
      exact ⟨after, by simp⟩
    | some p =>
      simp only [wp_bind, wp_get, wp_set, wp_pure]
      constructor
      · apply after.overwrite
        intro free heap
        exact heap.clear_used (.head _)
      · rintro _ ⟨⟩ x low high
        exact if_pos ⟨low, high⟩

theorem wp_blockSize (mem : (p, size) ∈ handed) : Wp (blockSize p) (fun _ s' => s' = s) s := by
  obtain ⟨free, heap, _⟩ := ht
  rcases heap.used p size mem with ⟨a, d, i, block, _⟩ | ⟨a, n, block, _⟩
  · simp [blockSize, wp_blockToArena heap.pages block, block.owner]
  · simp [blockSize, wp_blockToArena_big heap.pages block, block.owner]

/-- The block to be freed, if any, is handed out. -/
theorem wp_free_any {block : Option Nat} (hv : ∀ b, block = some b → ∃ size, (b, size) ∈ handed) :
    Wp (Malloc.free block) (fun _ s' => Tidy s' (Blocks.drop handed block)) s := by
  cases block with
  | none => exact .pure ht
  | some b =>
    obtain ⟨size, mem⟩ := hv b rfl
    exact wp_free ht mem

theorem wp_realloc {old : Option Nat}
    (hv : ∀ b, old = some b → ∃ size, (b, size) ∈ handed) (limit : size + arenaSize ≤ 2 ^ 32) :
    Wp (realloc old size) (fun found s' => Tidy s' (match found with
      | some p => (p, size) :: Blocks.drop handed old
      | none => if size = 0 then Blocks.drop handed old else handed)) s := by
  unfold realloc
  split_ifs with zero
  · rw [wp_bind]
    apply (wp_free_any ht hv).mono
    intro _ s' after
    rw [wp_pure]
    exact after
  · rw [wp_bind]
    apply (wp_malloc_tidy ht limit).mono
    intro found s' after
    cases found with
    | none =>
      rw [wp_pure]
      exact after
    | some new =>
      cases old with
      | none =>
        rw [wp_pure]
        exact after
      | some b =>
        obtain ⟨size', mem⟩ := hv b rfl
        simp only [wp_bind]
        apply (wp_blockSize after (.tail _ mem)).mono
        intro oldSize t eq
        rw [eq]
        simp only [wp_get, wp_set]
        have copy : Tidy (s'.overwrite new (new + min size oldSize) (copied s' new b))
            ((new, size) :: handed) := by
          apply after.overwrite
          intro free heap
          exact (heap.clear_used (.head _)).within (Nat.le_refl new) (by omega)
        apply (wp_free copy (.tail _ mem)).mono
        intro _ s'' freed
        rw [wp_pure]
        have ne : new ≠ b := by
          rintro rfl
          obtain ⟨_, heap, _⟩ := after
          have hf : new ∉ handed.map Prod.fst := (nodup_cons.mp heap.once).1
          exact hf (mem_map_of_mem (f := Prod.fst) mem)
        simp only [Blocks.drop] at freed ⊢
        rwa [eraseP_cons_of_neg (by simpa using ne)] at freed

end

end Pintos.Malloc
