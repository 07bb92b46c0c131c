import Pintos.Threads.Paging

/-!
# Page directories

`userprog/pagedir.c`. Reloading the page directory register (`invalidate_pagedir`) changes no memory
and is left out.
-/

namespace Pintos.Userprog

open Pintos.Paging Prog

def pagedirCreate : Mem (Option Nat) := do
  match ← pallocGetPage false with
  | none => pure none
  | some pd =>
    let r ← get
    set (r.copy pd r.initPageDir)
    pure (some pd)

/-- The entry for `vaddr` in the page table that `pde` points to. -/
def entryIn (pde vaddr : Nat) : Mem (Option Nat) := do
  let pt ← pdeGetPt (← load pde)
  pure (some (pt + 4 * ptNo vaddr))

def lookupPage (pd vaddr : Nat) (create : Bool) : Mem (Option Nat) := do
  assert (pd ≠ 0) "pd != NULL"
  assert (create = false ∨ isUserVaddr vaddr) "!create || is_user_vaddr (vaddr)"
  let pde := pd + 4 * pdNo vaddr
  if (← load pde) = 0 then
    if create then
      match ← pallocGetPage true with
      | none => pure none
      | some pt =>
        store pde (← pdeCreate pt)
        entryIn pde vaddr
    else pure none
  else entryIn pde vaddr

def pagedirSetPage (pd upage kpage : Nat) (writable : Bool) : Mem Bool := do
  assert (pgOfs upage = 0) "pg_ofs (upage) == 0"
  assert (pgOfs kpage = 0) "pg_ofs (kpage) == 0"
  assert (isUserVaddr upage) "is_user_vaddr (upage)"
  let r ← get
  assert ((← vtop kpage) >>> 12 < r.initRamPages) "vtop (kpage) >> PTSHIFT < init_ram_pages"
  assert (pd ≠ r.initPageDir) "pd != init_page_dir"
  match ← lookupPage pd upage true with
  | some pte =>
    assert ((← load pte) &&& pteP = 0) "(*pte & PTE_P) == 0"
    store pte (← pteCreateUser kpage writable)
    pure true
  | none => pure false

def pagedirGetPage (pd uaddr : Nat) : Mem (Option Nat) := do
  assert (isUserVaddr uaddr) "is_user_vaddr (uaddr)"
  match ← lookupPage pd uaddr false with
  | some pte =>
    let entry ← load pte
    if entry &&& pteP ≠ 0 then
      let page ← pteGetPage entry
      pure (some (page + pgOfs uaddr))
    else pure none
  | none => pure none

def pagedirClearPage (pd upage : Nat) : Mem Unit := do
  assert (pgOfs upage = 0) "pg_ofs (upage) == 0"
  assert (isUserVaddr upage) "is_user_vaddr (upage)"
  match ← lookupPage pd upage false with
  | some pte =>
    let entry ← load pte
    if entry &&& pteP ≠ 0 then store pte (entry &&& (2 ^ 32 - 1 - pteP)) else pure ()
  | none => pure ()

/-- Sets or clears a flag of the entry for `vpage`, if there is one. -/
def setFlag (flag pd vpage : Nat) (on : Bool) : Mem Unit := do
  match ← lookupPage pd vpage false with
  | some pte =>
    let entry ← load pte
    store pte (if on then entry ||| flag else entry &&& (2 ^ 32 - 1 - flag))
  | none => pure ()

def pagedirSetDirty : Nat → Nat → Bool → Mem Unit := setFlag pteD

def pagedirSetAccessed : Nat → Nat → Bool → Mem Unit := setFlag pteA

/-- Frees the page of a present entry. -/
def freeEntry (pte : Nat) : Mem Unit := do
  let entry ← load pte
  if entry &&& pteP ≠ 0 then
    pallocFreePage (← pteGetPage entry)
  else pure ()

/-- Frees the page table of a present entry, after its pages. -/
def freeTable (pde : Nat) : Mem Unit := do
  let entry ← load pde
  if entry &&& pteP ≠ 0 then
    let pt ← pdeGetPt entry
    upto (fun i _ => freeEntry (pt + 4 * i)) 1024 ()
    pallocFreePage pt
  else pure ()

def pagedirDestroy : Option Nat → Mem Unit
  | none => pure ()
  | some pd => do
    let r ← get
    assert (pd ≠ r.initPageDir) "pd != init_page_dir"
    upto (fun i _ => freeTable (pd + 4 * i)) (pdNo physBase) ()
    pallocFreePage pd

end Pintos.Userprog
