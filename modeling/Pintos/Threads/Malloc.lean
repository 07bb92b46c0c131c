import Pintos.Kernel.List
import Pintos.Lib.Machine
import Pintos.Threads.Paging

/-!
# malloc

The code of `threads/malloc.c`. Free blocks hold the links of the free lists, and the first bytes of
an arena its header; both are addressed by where they are in memory. Writing to memory overwrites
the links and headers that it meets.
-/

namespace Pintos.Malloc

open Pintos.Paging (pgSize pgOfs)
open Pintos.LinkedList Prog

/-- An element of a free list, or one of the two sentinels of that of a descriptor. -/
inductive Elem where
  | head (d : Nat)
  | tail (d : Nat)
  | block (address : Nat)
  deriving DecidableEq

structure Desc where
  blockSize : Nat
  blocksPerArena : Nat
  deriving DecidableEq, Inhabited

structure Arena where
  magic : Nat
  desc : Option Nat
  freeCnt : Nat

def arenaMagic : Nat := 0x9a548eed

/-- `sizeof (struct arena)`. -/
def arenaSize : Nat := 12

/-- `sizeof (struct block)`. -/
def linkSize : Nat := 8

/-- The loop of `malloc_init`; there is room for ten descriptors. -/
def mallocInit : Nat → Nat → List Desc
  | 0, _ => []
  | room + 1, blockSize =>
    if blockSize < pgSize / 2 then
      { blockSize, blocksPerArena := (pgSize - arenaSize) / blockSize } ::
        mallocInit room (blockSize * 2)
    else []

def descs : List Desc := mallocInit 10 16

def desc (d : Nat) : Desc := descs.getD d default

def freeList (d : Nat) : CList Elem := ⟨.head d, .tail d⟩

/-- What memory is overwritten with. -/
structure Bytes where
  prev : Nat → Option Elem
  next : Nat → Option Elem
  arena : Nat → Arena
  byte : Nat → Nat

structure Store where
  cells : Heap Elem
  arena : Nat → Arena
  /-- What blocks in use hold, byte by byte. -/
  byte : Nat → Nat
  /-- The runs of pages got from `palloc` and not given back. -/
  pages : List (Nat × Nat)
  /-- What `palloc` finds, call by call. -/
  answers : List (Option Nat)

namespace Store

variable (s : Store)

/-- Writes the bytes from `lo` up to `hi`. What is only met in part is not read again before it is
written. -/
def overwrite (lo hi : Nat) (bytes : Bytes) : Store :=
  { s with
    cells :=
      { prev := fun e => match e with
          | .block q => if q < hi ∧ lo < q + linkSize then bytes.prev q else s.cells.prev e
          | _ => s.cells.prev e
        next := fun e => match e with
          | .block q => if q < hi ∧ lo < q + linkSize then bytes.next q else s.cells.next e
          | _ => s.cells.next e }
    arena := fun a => if a < hi ∧ lo < a + arenaSize then bytes.arena a else s.arena a
    byte := fun x => if lo ≤ x ∧ x < hi then bytes.byte x else s.byte x }

def setArena (a : Nat) (header : Arena) : Store :=
  { s with arena := Function.update s.arena a header }

/-- A run of pages that `palloc` may return. -/
def Available (cnt a : Nat) : Prop :=
  a % pgSize = 0 ∧ 0 < a ∧ a + pgSize * cnt ≤ 2 ^ 32 ∧
    ∀ run ∈ s.pages, a + pgSize * cnt ≤ run.1 ∨ run.1 + pgSize * run.2 ≤ a

instance (cnt a : Nat) : Decidable (s.Available cnt a) := inferInstanceAs (Decidable (_ ∧ _))

def offer (cnt : Nat) : Option Nat :=
  s.answers.head?.join.filter fun a => decide (s.Available cnt a)

end Store

abbrev K := Prog Store

/-- `memset` to 0xcc. -/
def poison : Bytes where
  prev _ := some (.block 0xcccccccc)
  next _ := some (.block 0xcccccccc)
  arena _ := { magic := 0xcccccccc, desc := some 0xcccccccc, freeCnt := 0xcccccccc }
  byte _ := 0xcc

/-- `memset` to 0. -/
def zeros : Bytes where
  prev _ := none
  next _ := none
  arena _ := { magic := 0, desc := none, freeCnt := 0 }
  byte _ := 0

/-- `memcpy`. -/
def copied (s : Store) (new old : Nat) : Bytes where
  prev q := s.cells.prev (.block (q - new + old))
  next q := s.cells.next (.block (q - new + old))
  arena a := s.arena (a - new + old)
  byte x := s.byte (x - new + old)

/-- Runs list code on the links. -/
def onLists {α : Type} (m : M Elem α) : K α := fun s =>
  match m s.cells with
  | .ok (a, cells) => .ok (a, { s with cells })
  | .error e => .error e

/-- What `malloc_init` does for each descriptor besides. -/
def initLists : K Unit := upto (fun d _ => onLists (listInit (freeList d))) descs.length ()

def pallocGetMultiple (cnt : Nat) : K (Option Nat) := do
  let s ← get
  match if cnt = 0 then none else s.offer cnt with
  | none =>
    set { s with answers := s.answers.tail }
    pure none
  | some a =>
    set { s with answers := s.answers.tail, pages := (a, cnt) :: s.pages }
    pure (some a)

def pallocFreeMultiple (a cnt : Nat) : K Unit := do
  assert (pgOfs a = 0) "pg_ofs (pages) == 0"
  let s ← get
  set (s.overwrite a (a + pgSize * cnt) poison)
  assert ((a, cnt) ∈ s.pages) "bitmap_all (pool->used_map, page_idx, page_cnt)"
  let s ← get
  set { s with pages := s.pages.erase (a, cnt) }

def getArena (a : Nat) : K Arena := do return (← get).arena a

def setArena (a : Nat) (header : Arena) : K Unit := do set ((← get).setArena a header)

/-- The descriptor of an arena that is followed without a test. -/
def derefDesc : Option Nat → K Nat
  | some d => pure d
  | none => throw "null pointer"

def pgRoundDown (va : Nat) : Nat := va - pgOfs va

/-- The offset of a block from the end of the header, as an unsigned difference. -/
def blockOfs (b : Nat) : Nat := (pgOfs b + 2 ^ 32 - arenaSize) % 2 ^ 32

def blockToArena (b : Nat) : K Nat := do
  let a := pgRoundDown b
  assert (a ≠ 0) "a != NULL"
  let header ← getArena a
  assert (header.magic = arenaMagic) "a->magic == ARENA_MAGIC"
  assert (∀ d ∈ header.desc, blockOfs b % (desc d).blockSize = 0)
    "a->desc == NULL || (pg_ofs (b) - sizeof *a) % a->desc->block_size == 0"
  assert (header.desc ≠ none ∨ pgOfs b = arenaSize) "a->desc != NULL || pg_ofs (b) == sizeof *a"
  pure a

def arenaToBlock (a idx : Nat) : K Nat := do
  assert (a ≠ 0) "a != NULL"
  let header ← getArena a
  assert (header.magic = arenaMagic) "a->magic == ARENA_MAGIC"
  let d ← derefDesc header.desc
  assert (idx < (desc d).blocksPerArena) "idx < a->desc->blocks_per_arena"
  pure (a + arenaSize + idx * (desc d).blockSize)

def listEntry : Elem → K Nat
  | .block address => pure address
  | _ => throw "not a block"

/-- A block too big for any descriptor. -/
def mallocBig (size : Nat) : K (Option Nat) := do
  let pageCnt := (size + arenaSize + pgSize - 1) % 2 ^ 32 / pgSize
  match ← pallocGetMultiple pageCnt with
  | none => pure none
  | some a =>
    setArena a { magic := arenaMagic, desc := none, freeCnt := pageCnt }
    pure (some (a + arenaSize))

/-- A new arena, if the free list is empty. Whether there is a block then. -/
def refill (d : Nat) : K Bool := do
  if ← onLists (listEmpty (freeList d)) then
    match ← pallocGetMultiple 1 with
    | none => pure false
    | some a =>
      setArena a { magic := arenaMagic, desc := some d, freeCnt := (desc d).blocksPerArena }
      upto (fun i _ => do
        let b ← arenaToBlock a i
        onLists (listPushBack (freeList d) (.block b))) (desc d).blocksPerArena ()
      pure true
  else pure true

def takeBlock (d : Nat) : K Nat := do
  let b ← listEntry (← onLists (listPopFront (freeList d)))
  let a ← blockToArena b
  let header ← getArena a
  setArena a { header with freeCnt := header.freeCnt - 1 }
  pure b

def malloc (size : Nat) : K (Option Nat) := do
  if size = 0 then pure none
  else
    match descs.findIdx? (fun d => size ≤ d.blockSize) with
    | none => mallocBig size
    | some d => do
      if ← refill d then some <$> takeBlock d else pure none

def calloc (a b : Nat) : K (Option Nat) := do
  let size := a * b % 2 ^ 32
  if size < a ∨ size < b then pure none
  else
    match ← malloc size with
    | none => pure none
    | some p =>
      set ((← get).overwrite p (p + size) zeros)
      pure (some p)

def blockSize (block : Nat) : K Nat := do
  let a ← blockToArena block
  let header ← getArena a
  match header.desc with
  | some d => pure (desc d).blockSize
  | none => pure (pgSize * header.freeCnt - pgOfs block)

/-- Gives back an arena of which all blocks are on the free list. -/
def freeArena (a d : Nat) : K Unit := do
  assert ((← getArena a).freeCnt = (desc d).blocksPerArena) "a->free_cnt == d->blocks_per_arena"
  upto (fun i _ => do
    let b ← arenaToBlock a i
    let _ ← onLists (listRemove (.block b))
    pure ()) (desc d).blocksPerArena ()
  pallocFreeMultiple a 1

def free : Option Nat → K Unit
  | none => pure ()
  | some b => do
    let a ← blockToArena b
    let header ← getArena a
    match header.desc with
    | some d =>
      set ((← get).overwrite b (b + (desc d).blockSize) poison)
      onLists (listPushFront (freeList d) (.block b))
      let header ← getArena a
      setArena a { header with freeCnt := header.freeCnt + 1 }
      if header.freeCnt + 1 ≥ (desc d).blocksPerArena then freeArena a d else pure ()
    | none => pallocFreeMultiple a header.freeCnt

def realloc (oldBlock : Option Nat) (newSize : Nat) : K (Option Nat) := do
  if newSize = 0 then
    free oldBlock
    pure none
  else
    match ← malloc newSize with
    | none => pure none
    | some new =>
      match oldBlock with
      | none => pure (some new)
      | some old =>
        let oldSize ← blockSize old
        let s ← get
        set (s.overwrite new (new + min newSize oldSize) (copied s new old))
        free (some old)
        pure (some new)

/-! ### Sequences of calls -/

inductive Call where
  | malloc (size : Nat)
  | calloc (a b : Nat)
  | realloc (oldBlock : Option Nat) (newSize : Nat)
  | free (block : Option Nat)
  /-- Code that uses malloc, or does not, writes to its own memory. -/
  | write (lo hi : Nat) (bytes : Bytes)

/-- The kernel heap, with the blocks that are handed out and the sizes asked for. -/
structure Blocks where
  store : Store
  handed : List (Nat × Nat)

namespace Blocks

def isHanded (m : Blocks) (block : Option Nat) : Bool := block.all (m.handed.map Prod.fst).contains

def drop (handed : List (Nat × Nat)) : Option Nat → List (Nat × Nat)
  | none => handed
  | some b => handed.eraseP fun h => h.1 = b

/-- Memory that is in a block that is handed out, or in none of malloc's pages. -/
def Writable (m : Blocks) (lo hi : Nat) : Prop :=
  (∃ h ∈ m.handed, h.1 ≤ lo ∧ hi ≤ h.1 + h.2) ∨
    ∀ run ∈ m.store.pages, hi ≤ run.1 ∨ run.1 + pgSize * run.2 ≤ lo

instance (m : Blocks) (lo hi : Nat) : Decidable (m.Writable lo hi) :=
  inferInstanceAs (Decidable (_ ∨ _))

/-- Blocks are freed once, and sizes are at most `limit`. -/
def Valid (limit : Nat) (m : Blocks) : Call → Prop
  | .malloc size => size ≤ limit
  | .calloc a b => a < 2 ^ 32 ∧ b < 2 ^ 32 ∧ a * b ≤ limit
  | .realloc old size => m.isHanded old ∧ size ≤ limit
  | .free block => m.isHanded block
  | .write lo hi _ => m.Writable lo hi

instance (limit : Nat) (m : Blocks) : ∀ call, Decidable (m.Valid limit call)
  | .malloc _ => inferInstanceAs (Decidable (_ ≤ _))
  | .calloc _ _ => inferInstanceAs (Decidable (_ ∧ _ ∧ _))
  | .realloc _ _ => inferInstanceAs (Decidable (_ ∧ _))
  | .free _ => inferInstanceAs (Decidable (_ = true))
  | .write lo hi _ => inferInstanceAs (Decidable (m.Writable lo hi))

/-- Runs the call. The result is the blocks that are handed out after it. -/
def code (m : Blocks) : Call → K (List (Nat × Nat))
  | .malloc size => do
    let p ← Pintos.Malloc.malloc size
    pure ((p.map (·, size)).toList ++ m.handed)
  | .calloc a b => do
    let p ← Pintos.Malloc.calloc a b
    pure ((p.map (·, a * b)).toList ++ m.handed)
  | .realloc old size => do
    let p ← Pintos.Malloc.realloc old size
    -- without a new block the old one is still there, unless the call was to free it
    pure (match p with
      | some p => (p, size) :: drop m.handed old
      | none => if size = 0 then drop m.handed old else m.handed)
  | .free block => do
    Pintos.Malloc.free block
    pure (drop m.handed block)
  | .write lo hi bytes => do
    set ((← get).overwrite lo hi bytes)
    pure m.handed

def step (limit : Nat) (m : Blocks) (call : Call) : Option Blocks :=
  if m.Valid limit call then
    match m.code call m.store with
    | .ok (handed, store) => some { store, handed }
    | .error _ => none
  else none

end Blocks

end Pintos.Malloc
