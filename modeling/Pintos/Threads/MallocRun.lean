import Pintos.Threads.MallocFree

/-!
# Sequences of calls to malloc

In every state between two calls the free lists, the counts of the arenas, the blocks handed out and
the pages agree.
-/

namespace Pintos.Malloc

open Pintos.Paging (pgSize pgOfs pgOfs_eq)
open Pintos.LinkedList Prog List Option
open Machine

variable {s s' : Store} {free : Nat → List Nat} {handed : List (Nat × Nat)}
  {a a' d d' i j n p q x lo hi hi' size limit : Nat}

/-- The block at `p` goes up to `hi`. -/
inductive Extent (s : Store) (p hi : Nat) : Prop where
  | small (a d i : Nat) : Block s a d i p → hi = p + (desc d).blockSize → Extent s p hi
  | big (a n : Nat) : BigBlock s a n p → hi = a + pgSize * n → Extent s p hi

/-- What holds between two calls, where `free` are the blocks on the free lists. -/
structure Sound (m : Blocks) (free : Nat → List Nat) : Prop where
  lists : ∀ d < descs.length, Reps m.store.cells (freeList d) ((free d).map .block)
  listed : ∀ d < descs.length, ∀ x ∈ free d, ∃ a i, Block m.store a d i x
  count : ∀ a d, (a, 1) ∈ m.store.pages → (m.store.arena a).desc = some d →
    (m.store.arena a).freeCnt = (free d).countP (· ∈ blocksOf a d)
  once : ∀ a d i x, Block m.store a d i x → (free d).count x + (m.handed.map Prod.fst).count x = 1
  large : ∀ h ∈ m.handed, ∃ hi, Extent m.store h.1 hi ∧ h.1 + h.2 ≤ hi
  apart : m.handed.Pairwise fun h k => ∀ hi hi', Extent m.store h.1 hi → Extent m.store k.1 hi' →
    hi ≤ k.1 ∨ hi' ≤ h.1
  unlisted : ∀ h ∈ m.handed, ∀ hi, Extent m.store h.1 hi → ∀ d < descs.length, ∀ x ∈ free d,
    hi ≤ x ∨ x + (desc d).blockSize ≤ h.1
  headers : ∀ h ∈ m.handed, ∀ hi, Extent m.store h.1 hi → ∀ run ∈ m.store.pages,
    hi ≤ run.1 ∨ run.1 + arenaSize ≤ h.1
  inside : ∀ h ∈ m.handed, ∀ hi, Extent m.store h.1 hi →
    ∃ run ∈ m.store.pages, run.1 + arenaSize ≤ h.1 ∧ hi ≤ run.1 + pgSize * run.2
  pages : m.store.pages.Pairwise Apart
  held : ∀ run ∈ m.store.pages, ∃ h ∈ m.handed, InRun run.1 run.2 h.1

namespace Extent

theorem inside (extent : Extent s p hi) (pages : Pages s) :
    ∃ run ∈ s.pages, run.1 + arenaSize ≤ p ∧ hi ≤ run.1 + pgSize * run.2 := by
  cases extent with
  | small a d i block ends =>
    obtain ⟨low, high⟩ := block.inside pages
    exact ⟨(a, 1), block.page, low, by omega⟩
  | big a n block ends => exact ⟨(a, n), block.page, by rw [block.address], by rw [ends]⟩

theorem headers (extent : Extent s p hi) (pages : Pages s) {run : Nat × Nat}
    (page : run ∈ s.pages) :
    hi ≤ run.1 ∨ run.1 + arenaSize ≤ p := by
  obtain ⟨own, mem, low, high⟩ := extent.inside pages
  by_cases eq : own = run
  · rw [← eq]
    exact .inr low
  · have pos := (pages.run run.1 run.2 page).2.2
    have := pages.disjoint mem page eq
    unfold pgSize arenaSize at *
    omega

/-- Two blocks have no byte in common. -/
theorem apart (first : Extent s p hi) (second : Extent s q hi') (pages : Pages s) (differ : p ≠ q) :
    hi ≤ q ∨ hi' ≤ p := by
  cases first with
  | small a d i block ends =>
    cases second with
    | small a' d' j ne ends' =>
      by_cases eq : a = a'
      · subst eq
        have kind : d = d' := some.inj (block.owner.symm.trans ne.owner)
        subst kind
        rw [ends, ends', block.address, ne.address]
        rcases Nat.lt_trichotomy i j with less | rfl | less
        · exact .inl (blockAt_apart less)
        · exact absurd (block.address.trans ne.address.symm) differ
        · exact .inr (blockAt_apart less)
      · have := block.inside pages
        have := ne.inside pages
        have := pages.disjoint block.page ne.page (by simpa using eq)
        omega
    | big a' n ne ends' =>
      have differ' : (a, 1) ≠ (a', n) := by grind
      have := block.inside pages
      have address := ne.address
      have := pages.disjoint block.page ne.page differ'
      omega
  | big a n block ends =>
    cases second with
    | small a' d' j ne ends' =>
      have differ' : (a', 1) ≠ (a, n) := by grind
      have := ne.inside pages
      have address := block.address
      have := pages.disjoint ne.page block.page differ'
      omega
    | big a' m ne ends' =>
      have address := block.address
      have address' := ne.address
      have differ' : a ≠ a' := by
        rintro rfl
        omega
      have := pages.disjoint block.page ne.page (by simp [differ'])
      omega

end Extent

theorem Heaped.extent (heap : Heaped s free handed) (mem : (p, size) ∈ handed) :
    ∃ hi, Extent s p hi ∧ p + size ≤ hi := by
  rcases heap.used p size mem with ⟨a, d, i, block, _, hf⟩ | ⟨a, n, block, hf⟩
  · exact ⟨_, .small a d i block rfl, by omega⟩
  · exact ⟨_, .big a n block rfl, hf⟩

theorem Heaped.once_only (heap : Heaped s free handed) (block : Block s a d i x) :
    (free d).count x + (handed.map Prod.fst).count x = 1 := by
  have hv := heap.pages.valid block.page block.owner
  rcases heap.cover a d i x block with hl | ⟨size, mem⟩
  · rw [count_eq_one_of_mem (heap.listed_once hv) hl,
      count_eq_zero_of_not_mem (heap.not_used hv hl)]
  · have used : x ∈ handed.map Prod.fst := mem_map_of_mem (f := Prod.fst) mem
    rw [count_eq_one_of_mem heap.once used, count_eq_zero_of_not_mem]
    exact fun hl => heap.not_used hv hl used

theorem Heaped.held (heap : Heaped s free handed) (hb : Busy s handed fun _ => False)
    (page : (a, n) ∈ s.pages) : ∃ h ∈ handed, InRun a n h.1 := by
  have pos := (heap.pages.run a n page).2.2
  cases owner : (s.arena a).desc with
  | none =>
    obtain ⟨_, size, mem⟩ := heap.big a n page owner
    refine ⟨_, mem, ?_⟩
    unfold InRun pgSize arenaSize
    omega
  | some d =>
    obtain ⟨rfl, hv⟩ := heap.pages.small a n d page owner
    obtain ⟨i, index, size, mem⟩ := (hb a d page owner).resolve_left id
    obtain ⟨low, high⟩ := blockAt_inside (a := a) hv index
    obtain ⟨large, _⟩ := desc_fits hv
    refine ⟨_, mem, ?_⟩
    unfold InRun
    omega

theorem Tidy.sound (ht : Tidy s handed) : ∃ free, Sound ⟨s, handed⟩ free := by
  obtain ⟨free, heap, busy⟩ := ht
  refine ⟨free, ?_⟩
  constructor
  case lists => exact heap.lists
  case listed => exact heap.listed
  case count =>
    intro a d page owner
    have hv := heap.pages.valid page owner
    rw [heap.count a d page owner]
    apply countP_congr
    intro x listed
    rw [decide_eq_true_iff]
    constructor
    · intro here
      exact (heap.listed_in page owner hv listed here).2
    · exact inPage_blocksOf hv (heap.pages.run a 1 page).1
  case once =>
    intro a d i x block
    exact heap.once_only block
  case large =>
    rintro ⟨p, size⟩ mem
    exact heap.extent mem
  case apart =>
    apply (pairwise_map.mp heap.once).imp
    intro h k ne hi hi' first second
    exact first.apart second heap.pages ne
  case unlisted =>
    rintro ⟨p, size⟩ mem hi extent d hv x listed
    obtain ⟨a, i, block⟩ := heap.listed d hv x listed
    refine extent.apart (.small a d i block rfl) heap.pages ?_
    rintro rfl
    exact heap.not_used hv listed (mem_map_of_mem (f := Prod.fst) mem)
  case headers =>
    intro h _ hi extent run page
    exact extent.headers heap.pages page
  case inside =>
    intro h _ hi extent
    exact extent.inside heap.pages
  case pages => exact heap.pages.apart
  case held =>
    rintro ⟨a, n⟩ page
    exact heap.held busy page

/-! ### Which pages come and go -/

/-- Runs of pages that are new meet none of the old ones. -/
def Fresh (old new : List (Nat × Nat)) : Prop := ∀ r ∈ new, r ∈ old ∨ ∀ t ∈ old, Apart t r

/-- What a program does to the runs of pages. -/
def Moves {α : Type} (R : List (Nat × Nat) → List (Nat × Nat) → Prop) (m : K α) : Prop :=
  ∀ s, Runs False m (fun _ s' => R s.pages s'.pages) s

/-- No pages are got. -/
abbrev Fewer {α : Type} (m : K α) : Prop := Moves (fun old new => new ⊆ old) m

/-- All pages stay. -/
abbrev Quiet {α : Type} (m : K α) : Prop := Moves Eq m

section
variable {α β : Type} {m : K α} {f : α → K β}
  {R R' R'' : List (Nat × Nat) → List (Nat × Nat) → Prop}

theorem Moves.bind (first : Moves R m) (rest : ∀ a, Moves R' (f a))
    (both : ∀ x y z, R x y → R' y z → R'' x z) : Moves R'' (m >>= f) := by
  intro s
  apply Runs.bind
  apply (first s).mono
  intro a t hm
  apply (rest a t).mono
  intro _ u moved'
  exact both _ _ _ hm moved'

theorem Moves.mono (moves : Moves R m) (weaker : ∀ x y, R x y → R' x y) : Moves R' m :=
  fun s => (moves s).mono fun _ _ => weaker _ _

theorem Quiet.bind (first : Quiet m) (rest : ∀ a, Moves R (f a)) : Moves R (m >>= f) :=
  Moves.bind first rest fun _ _ _ eq hm => eq ▸ hm

theorem Fewer.bind (first : Fewer m) (rest : ∀ a, Fewer (f a)) : Fewer (m >>= f) :=
  Moves.bind first rest fun _ _ _ was after => List.Subset.trans after was

theorem Quiet.fewer (hq : Quiet m) : Fewer m :=
  Moves.mono hq fun _ _ eq => eq ▸ List.Subset.refl _

theorem Fresh.fewer {x y z : List (Nat × Nat)} (hf : Fresh x y) (fewer : z ⊆ y) : Fresh x z :=
  fun r mem => hf r (fewer mem)

theorem fresh_of_subset {x y : List (Nat × Nat)} (fewer : y ⊆ x) : Fresh x y :=
  fun _ mem => .inl (fewer mem)

theorem quiet_pure (a : α) : Quiet (pure a : K α) := fun _ => .pure rfl

theorem quiet_assert (c : Prop) [Decidable c] (text : String) : Quiet (assert c text : K Unit) :=
  fun _ => .assert (fun no => no.elim) fun _ => rfl

theorem quiet_onLists (l : M Elem α) : Quiet (onLists l) := by
  intro s
  unfold Runs onLists
  cases l s.cells with
  | ok r => exact rfl
  | error e => exact id

theorem quiet_getArena : Quiet (getArena a) := fun _ => .bind (.get (.pure rfl))

theorem quiet_setArena (header : Arena) : Quiet (setArena a header) :=
  fun _ => .bind (.get (.set rfl))

theorem moves_overwrite {bytes : Store → Bytes} {rest : K α} (moves : Moves R rest) :
    Moves R (do let s ← get; set (s.overwrite lo hi (bytes s)); rest) := by
  intro s
  apply Runs.bind
  apply Runs.get
  apply Runs.bind
  apply Runs.set
  exact moves (s.overwrite lo hi (bytes s))

theorem quiet_derefDesc (o : Option Nat) : Quiet (derefDesc o) := by
  cases o with
  | some d => exact quiet_pure d
  | none => exact fun _ => .throw id

theorem quiet_listEntry (e : Elem) : Quiet (listEntry e) := by
  cases e with
  | block x => exact quiet_pure x
  | head | tail => exact fun _ => .throw id

theorem quiet_upto {body : Nat → α → K α} (each : ∀ i a, Quiet (body i a)) (n : Nat) (a : α) :
    Quiet (upto body n a) := by
  intro s
  apply Runs.upto (I := fun (_ : Nat) (_ : α) (t : Store) => s.pages = t.pages)
  · rfl
  · intro i _ a t eq
    rw [eq]
    exact each i a t

end

theorem quiet_arenaToBlock : Quiet (arenaToBlock a i) :=
  (quiet_assert _ _).bind fun _ => quiet_getArena.bind fun _ => (quiet_assert _ _).bind fun _ =>
    (quiet_derefDesc _).bind fun _ => (quiet_assert _ _).bind fun _ => quiet_pure _

theorem quiet_blockToArena : Quiet (blockToArena p) :=
  (quiet_assert _ _).bind fun _ => quiet_getArena.bind fun _ => (quiet_assert _ _).bind fun _ =>
    (quiet_assert _ _).bind fun _ => (quiet_assert _ _).bind fun _ => quiet_pure _

theorem quiet_takeBlock : Quiet (takeBlock d) :=
  (quiet_onLists _).bind fun _ => (quiet_listEntry _).bind fun _ => quiet_blockToArena.bind fun _ =>
    quiet_getArena.bind fun _ => (quiet_setArena _).bind fun _ => quiet_pure _

theorem fresh_pallocGetMultiple : Moves Fresh (pallocGetMultiple n) := by
  intro s
  apply Wp.runs
  apply wp_pallocGetMultiple
  · exact fresh_of_subset (List.Subset.refl _)
  · intro _ a ha r mem
    rcases mem_cons.mp mem with rfl | old
    · right
      intro t page
      exact (ha.2.2.2 t page).symm
    · exact .inl old

theorem fewer_pallocFreeMultiple : Fewer (pallocFreeMultiple a n) := by
  unfold pallocFreeMultiple
  refine (quiet_assert _ _).bind fun _ => ?_
  intro s
  apply Runs.bind
  apply Runs.get
  apply Runs.bind
  apply Runs.set
  apply Runs.bind
  apply Runs.assert (fun no => no.elim)
  intro _
  apply Runs.bind
  apply Runs.get
  apply Runs.set
  exact erase_subset

theorem fresh_mallocBig : Moves Fresh (mallocBig size) := by
  unfold mallocBig
  refine fresh_pallocGetMultiple.bind ?_ fun _ _ _ => Fresh.fewer
  intro found
  cases found with
  | none => exact (quiet_pure _).fewer
  | some a => exact Quiet.fewer ((quiet_setArena _).bind fun _ => quiet_pure _)

theorem fresh_refill : Moves Fresh (refill d) := by
  unfold refill
  refine (quiet_onLists _).bind fun empty => ?_
  split_ifs
  · refine fresh_pallocGetMultiple.bind ?_ fun _ _ _ => Fresh.fewer
    intro found
    cases found with
    | none => exact (quiet_pure _).fewer
    | some a =>
      apply Quiet.fewer
      refine (quiet_setArena _).bind fun _ => (quiet_upto ?_ _ _).bind fun _ => quiet_pure _
      intro i _
      exact quiet_arenaToBlock.bind fun _ => quiet_onLists _
  · exact (quiet_pure _).fewer.mono fun _ _ => fresh_of_subset

theorem fresh_malloc : Moves Fresh (malloc size) := by
  unfold malloc
  split_ifs
  · exact (quiet_pure _).fewer.mono fun _ _ => fresh_of_subset
  · split
    · exact fresh_mallocBig
    · refine fresh_refill.bind ?_ fun _ _ _ => Fresh.fewer
      intro found
      split_ifs
      · rw [← bind_pure_comp]
        exact Quiet.fewer (quiet_takeBlock.bind fun _ => quiet_pure _)
      · exact (quiet_pure _).fewer

theorem fresh_calloc {b : Nat} : Moves Fresh (calloc a b) := by
  unfold calloc
  dsimp only
  split_ifs
  · exact (quiet_pure _).fewer.mono fun _ _ => fresh_of_subset
  · refine fresh_malloc.bind ?_ fun _ _ _ => Fresh.fewer
    intro found
    cases found with
    | none => exact (quiet_pure _).fewer
    | some p =>
      exact moves_overwrite (quiet_pure _).fewer

theorem fewer_freeArena : Fewer (freeArena a d) := by
  unfold freeArena
  refine quiet_getArena.bind fun _ => (quiet_assert _ _).bind fun _ =>
    (quiet_upto ?_ _ _).bind fun _ =>
    fewer_pallocFreeMultiple
  intro i _
  exact quiet_arenaToBlock.bind fun _ => (quiet_onLists _).bind fun _ => quiet_pure _

theorem fewer_free (block : Option Nat) : Fewer (Malloc.free block) := by
  cases block with
  | none => exact (quiet_pure _).fewer
  | some b =>
    refine quiet_blockToArena.bind fun _ => quiet_getArena.bind fun header => ?_
    cases header.desc with
    | none => exact fewer_pallocFreeMultiple
    | some d =>
      refine moves_overwrite ((quiet_onLists _).bind fun _ => quiet_getArena.bind fun _ =>
        (quiet_setArena _).bind fun _ => ?_)
      split_ifs
      · exact fewer_freeArena
      · exact (quiet_pure _).fewer

theorem fresh_realloc (old : Option Nat) : Moves Fresh (realloc old size) := by
  unfold realloc
  split_ifs
  · exact ((fewer_free old).bind fun _ => (quiet_pure _).fewer).mono fun _ _ => fresh_of_subset
  · refine fresh_malloc.bind ?_ fun _ _ _ => Fresh.fewer
    intro found
    cases found with
    | none => exact (quiet_pure _).fewer
    | some new =>
      cases old with
      | none => exact (quiet_pure _).fewer
      | some b =>
        have size_quiet : Quiet (blockSize b) := by
          refine quiet_blockToArena.bind fun _ => quiet_getArena.bind fun header => ?_
          cases header.desc with
          | none => exact quiet_pure _
          | some d => exact quiet_pure _
        exact size_quiet.bind fun _ => moves_overwrite
          ((fewer_free (some b)).bind fun _ => (quiet_pure _).fewer)

/-! ### Sequences of calls -/

theorem fresh_code (m : Blocks) (call : Call) : Moves Fresh (m.code call) := by
  cases call with
  | malloc size =>
    exact fresh_malloc.bind (fun _ => (quiet_pure _).fewer) fun _ _ _ => Fresh.fewer
  | calloc a b =>
    exact fresh_calloc.bind (fun _ => (quiet_pure _).fewer) fun _ _ _ => Fresh.fewer
  | realloc old size =>
    exact (fresh_realloc old).bind (fun _ => (quiet_pure _).fewer) fun _ _ _ => Fresh.fewer
  | free block =>
    exact ((fewer_free block).bind fun _ => (quiet_pure _).fewer).mono fun _ _ => fresh_of_subset
  | write lo hi bytes =>
    exact moves_overwrite ((quiet_pure _).fewer.mono fun _ _ => fresh_of_subset)

theorem isHanded_iff {m : Blocks} {block : Option Nat} :
    m.isHanded block = true ↔ ∀ b, block = some b → ∃ size, (b, size) ∈ m.handed := by
  cases block with
  | none => simp [Blocks.isHanded]
  | some b => simp [Blocks.isHanded]

/-- Every call leaves the heap in order. -/
theorem wp_code {m : Blocks} (ht : Tidy m.store m.handed) {call : Call}
    (hs : limit + arenaSize ≤ 2 ^ 32) (hv : m.Valid limit call) :
    Wp (m.code call) (fun handed s' => Tidy s' handed) m.store := by
  cases call with
  | malloc size =>
    have hv : size ≤ limit := hv
    simp only [Blocks.code, wp_bind, wp_pure]
    exact wp_malloc_tidy ht (by omega)
  | calloc a b =>
    obtain ⟨_, _, hv⟩ := hv
    simp only [Blocks.code, wp_bind, wp_pure]
    exact (wp_calloc ht (by omega)).mono fun _ _ => And.left
  | realloc old size =>
    obtain ⟨there, hv⟩ := hv
    simp only [Blocks.code, wp_bind, wp_pure]
    exact wp_realloc ht (isHanded_iff.mp there) (by omega)
  | free block =>
    simp only [Blocks.code, wp_bind, wp_pure]
    exact wp_free_any ht (isHanded_iff.mp hv)
  | write lo hi bytes =>
    simp only [Blocks.code, wp_bind, wp_get, wp_set, wp_pure]
    apply ht.overwrite
    intro free heap
    rcases hv with ⟨h, mem, low, high⟩ | foreign
    · exact (heap.clear_used mem).within low high
    · exact heap.clear_foreign foreign

theorem step_tidy {m m' : Blocks} (ht : Tidy m.store m.handed) {call : Call}
    (hs : limit + arenaSize ≤ 2 ^ 32) (stepped : m.step limit call = some m') :
    Tidy m'.store m'.handed := by
  unfold Blocks.step at stepped
  split_ifs at stepped with hv
  split at stepped
  · rename_i handed store ran
    cases stepped
    exact (wp_code ht hs hv).result ran
  · cases stepped

theorem step_fresh {m m' : Blocks} {call : Call} (stepped : m.step limit call = some m') :
    Fresh m.store.pages m'.store.pages := by
  unfold Blocks.step at stepped
  split_ifs at stepped with hv
  split at stepped
  · rename_i handed store ran
    cases stepped
    exact (fresh_code m call m.store).result ran
  · cases stepped

theorem step_valid {m : Blocks} (ht : Tidy m.store m.handed) {call : Call}
    (hs : limit + arenaSize ≤ 2 ^ 32) (hv : m.Valid limit call) :
    ∃ m', m.step limit call = some m' := by
  obtain ⟨handed, store, ran, _⟩ := wp_code ht hs hv
  refine ⟨{ store, handed }, ?_⟩
  unfold Blocks.step
  rw [if_pos hv, ran]

theorem wp_initLists (empty : s.pages = []) : Wp initLists (fun _ s' => Tidy s' []) s := by
  have lists : Wp initLists (fun _ s' => s'.pages = [] ∧
      ∀ d < descs.length, Reps s'.cells (freeList d) []) s := by
    apply Wp.upto (I := fun (k : Nat) (_ : Unit) (t : Store) => t.pages = [] ∧
      ∀ d < k, Reps t.cells (freeList d) [])
    · exact ⟨empty, by simp⟩
    · rintro k _ _ t ⟨empty, lists⟩
      rw [wp_onLists]
      apply (wp_listInit (by simp [freeList])).mono
      rintro _ cells ⟨list, eq⟩
      refine ⟨empty, fun d lt => ?_⟩
      by_cases h : d = k
      · rw [h]
        exact list
      · apply (lists d (by omega)).same eq
        intro e mem
        rcases CList.mem_cells.mp mem with rfl | no | rfl
        · simp [CList.cells, freeList, h]
        · cases no
        · simp [CList.cells, freeList, h]
  apply lists.mono
  rintro _ t ⟨none, lists⟩
  refine ⟨fun _ => [], ?_, fun a d page => by simp [none] at page⟩
  constructor
  case pages => constructor <;> simp [none]
  case lists => exact lists
  all_goals simp [none]
  rintro a d i x ⟨page, _⟩
  simp [none] at page

theorem run_tidy {start s : Store} {history : List Call} {m : Blocks} (empty : start.pages = [])
    (boot : initLists start = .ok ((), s)) (hs : limit + arenaSize ≤ 2 ^ 32)
    (run : Run (Blocks.step limit) Free ⟨s, []⟩ history m) : Tidy m.store m.handed := by
  apply run.invariant (I := fun m => Tidy m.store m.handed)
  · exact (wp_initLists empty).result boot
  · intro m call m' ht _ ran
    exact step_tidy ht hs ran

/-- A run of pages is given back by the call after which no block in it is handed out. -/
theorem Tidy.returned {m m' : Blocks} (ht : Tidy m.store m.handed) (tidy' : Tidy m'.store m'.handed)
    (hf : Fresh m.store.pages m'.store.pages) {r : Nat × Nat} (page : r ∈ m.store.pages) :
    r ∉ m'.store.pages ↔ ∀ h ∈ m'.handed, ¬ InRun r.1 r.2 h.1 := by
  obtain ⟨_, heap, _⟩ := ht
  obtain ⟨free, heaped', hb⟩ := tidy'
  constructor
  · rintro gone ⟨p, size⟩ mem lt
    obtain ⟨hi, extent, _⟩ := heaped'.extent mem
    obtain ⟨t, there, low, high⟩ := extent.inside heaped'.pages
    have inside' : InRun t.1 t.2 p := by
      obtain ⟨large, _⟩ | ⟨a, n, block, ends⟩ := extent
      · rename_i i block ends
        have := (desc_fits (heaped'.pages.valid block.page block.owner)).1
        unfold InRun
        omega
      · unfold InRun
        have := (heaped'.pages.run a n block.page).2.2
        have := block.address
        unfold pgSize arenaSize at *
        omega
    have ne : Apart r t := by
      rcases hf t there with old | new
      · exact heap.pages.apart.forall page old fun eq => gone (eq ▸ there)
      · exact new r page
    unfold Apart at ne
    unfold InRun at lt inside'
    dsimp only at lt
    omega
  · intro none still
    obtain ⟨h, mem, lt⟩ := heaped'.held hb still
    exact none h mem lt

theorem malloc_arenas_sound {start s : Store} {history : List Call} {m : Blocks}
    (none : start.pages = []) (boot : initLists start = .ok ((), s))
    (run : Run (Blocks.step (2 ^ 31)) Free ⟨s, []⟩ history m) :
    (∃ free, Sound m free) ∧ ∀ call, m.Valid (2 ^ 31) call → ∃ m', m.step (2 ^ 31) call = some m' ∧
      ∀ r ∈ m.store.pages, r ∉ m'.store.pages ↔ ∀ h ∈ m'.handed, ¬ InRun r.1 r.2 h.1 := by
  have hs : 2 ^ 31 + arenaSize ≤ 2 ^ 32 := by decide
  have ht := run_tidy none boot hs run
  refine ⟨ht.sound, fun call hv => ?_⟩
  obtain ⟨m', ran⟩ := step_valid ht hs hv
  refine ⟨m', ran, fun r page => ?_⟩
  exact ht.returned (step_tidy ht hs ran) (step_fresh ran) page

/-- Memory is empty, and `palloc` is to find these pages. -/
def blank (answers : List (Option Nat)) : Store where
  cells := { prev := fun _ => none, next := fun _ => none }
  arena _ := { magic := 0, desc := none, freeCnt := 0 }
  byte _ := 0
  pages := []
  answers := answers

/-- The last block of the first arena is freed, and a big block moves. -/
def fewCalls : List Call :=
  [.malloc 100, .calloc 3 200, .malloc 5000, .free (some 0xc010000c), .realloc (some 0xc030000c)
    9000,
    .malloc 3]

def fewAnswers : List (Option Nat) :=
  [some 0xc0100000, some 0xc0200000, some 0xc0300000, some 0xc0400000, none]

theorem malloc_arenas_sound_fewCalls : ∃ s m, initLists (blank fewAnswers) = .ok ((), s) ∧
    Run (Blocks.step (2 ^ 31)) Free ⟨s, []⟩ fewCalls.reverse m ∧
    m.handed = [(0xc040000c, 9000), (0xc020000c, 600)] ∧
    m.store.pages = [(0xc0400000, 3), (0xc0200000, 1)] ∧ ∃ free, Sound m free := by
  have state : (((initLists (blank fewAnswers)).toOption.bind fun r =>
      (runs (Blocks.step (2 ^ 31)) Free ⟨r.2, []⟩ fewCalls).map fun m =>
        (m.handed, m.store.pages))) =
      some ([(0xc040000c, 9000), (0xc020000c, 600)], [(0xc0400000, 3), (0xc0200000, 1)]) := by
    decide +kernel
  obtain ⟨⟨_, s⟩, boot, state⟩ := bind_eq_some_iff.mp state
  obtain ⟨m, ran, shape⟩ := map_eq_some_iff.mp state
  obtain ⟨handed, pages⟩ := Prod.mk.injEq .. ▸ shape
  have boot := ok_of_toOption boot
  have run := runs_run ran
  exact ⟨s, m, boot, run, handed, pages, (malloc_arenas_sound rfl boot run).1⟩

/-! ### Sizes -/

end Pintos.Malloc
