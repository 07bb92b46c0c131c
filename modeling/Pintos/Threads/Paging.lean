import Mathlib.Data.Nat.Bitwise
import Pintos.Lib.Loop

/-!
# Kernel memory and page table entries

Memory is made of 32-bit words. `palloc_get_page` gives a page of RAM that is not in use or
nothing; which of the two, and which page, is left to the list of its answers.
-/

namespace Pintos.Paging

open Prog

/-! ### threads/vaddr.h -/

def pgSize : Nat := 4096

def pgMask : Nat := 0xfff

def physBase : Nat := 0xc0000000

def pgOfs (va : Nat) : Nat := va &&& pgMask

def pgNo (va : Nat) : Nat := va >>> 12

def isUserVaddr (vaddr : Nat) : Prop := vaddr < physBase

def isKernelVaddr (vaddr : Nat) : Prop := physBase ≤ vaddr

instance (vaddr : Nat) : Decidable (isUserVaddr vaddr) := inferInstanceAs (Decidable (_ < _))

instance (vaddr : Nat) : Decidable (isKernelVaddr vaddr) := inferInstanceAs (Decidable (_ ≤ _))

variable {σ : Type}

def ptov (paddr : Nat) : Prog σ Nat := do
  assert (paddr < physBase) "(void *) paddr < PHYS_BASE"
  pure ((paddr + physBase) % 2 ^ 32)

def vtop (vaddr : Nat) : Prog σ Nat := do
  assert (isKernelVaddr vaddr) "is_kernel_vaddr (vaddr)"
  pure (vaddr - physBase)

/-! ### threads/pte.h -/

def ptMask : Nat := 0x3ff000

def ptNo (va : Nat) : Nat := (va &&& ptMask) >>> 12

def pdNo (va : Nat) : Nat := va >>> 22

def pteAddr : Nat := 0xfffff000
def pteP : Nat := 0x1
def pteW : Nat := 0x2
def pteU : Nat := 0x4
def pteA : Nat := 0x20
def pteD : Nat := 0x40

def pdeCreate (pt : Nat) : Prog σ Nat := do
  assert (pgOfs pt = 0) "pg_ofs (pt) == 0"
  let paddr ← vtop pt
  pure (paddr ||| pteU ||| pteP ||| pteW)

def pdeGetPt (pde : Nat) : Prog σ Nat := do
  assert (pde &&& pteP ≠ 0) "pde & PTE_P"
  ptov (pde &&& pteAddr)

def pteCreateKernel (page : Nat) (writable : Bool) : Prog σ Nat := do
  assert (pgOfs page = 0) "pg_ofs (page) == 0"
  let paddr ← vtop page
  pure (paddr ||| pteP ||| if writable then pteW else 0)

def pteCreateUser (page : Nat) (writable : Bool) : Prog σ Nat := do
  let pte ← pteCreateKernel page writable
  pure (pte ||| pteU)

def pteGetPage (pte : Nat) : Prog σ Nat := ptov (pte &&& pteAddr)

/-! ### Memory -/

structure Ram where
  word : Nat → Nat
  initRamPages : Nat
  initPageDir : Nat
  outstanding : List Nat
  /-- Every page ever given out and every page ever freed, newest first. -/
  obtained : List Nat
  released : List Nat
  /-- What `palloc_get_page` finds, call by call. -/
  answers : List (Option Nat)

namespace Ram

variable (r : Ram)

/-- The kernel address of a page of RAM. -/
def IsPage (page : Nat) : Prop :=
  pgOfs page = 0 ∧ isKernelVaddr page ∧ (page - physBase) >>> 12 < r.initRamPages

instance (page : Nat) : Decidable (r.IsPage page) := inferInstanceAs (Decidable (_ ∧ _))

def write (address value : Nat) : Ram :=
  { r with word := Function.update r.word address value }

def fill (page value : Nat) : Ram :=
  { r with word := fun a => if pgNo a = pgNo page then value else r.word a }

def copy (page source : Nat) : Ram :=
  { r with word := fun a => if pgNo a = pgNo page then r.word (source + pgOfs a) else r.word a }

/-- An answer that names no free page of RAM counts as a failure. -/
def offer : Option Nat :=
  r.answers.head?.join.filter fun page => decide (r.IsPage page ∧ page ∉ r.outstanding)

def answered : Ram := { r with answers := r.answers.tail }

def take (page : Nat) : Ram :=
  { r with outstanding := page :: r.outstanding, obtained := page :: r.obtained }

def drop (page : Nat) : Ram :=
  { r with outstanding := r.outstanding.erase page, released := page :: r.released }

end Ram

abbrev Mem := Prog Ram

def load (address : Nat) : Mem Nat := do
  let r ← get
  pure (r.word address)

def store (address value : Nat) : Mem Unit := do
  let r ← get
  set (r.write address value)

/-- `palloc_get_page`, with `PAL_ZERO` or without. -/
def pallocGetPage (zero : Bool) : Mem (Option Nat) := do
  let r ← get
  match r.offer with
  | none =>
    set r.answered
    pure none
  | some page =>
    set (if zero then (r.answered.take page).fill page 0 else r.answered.take page)
    pure (some page)

/-- With `PAL_ASSERT` and `PAL_ZERO`. -/
def pallocGetPageAssert : Mem Nat := do
  match ← pallocGetPage true with
  | some page => pure page
  | none => throw "palloc_get: out of pages"

def pallocFreePage (page : Nat) : Mem Unit := do
  assert (pgOfs page = 0) "pg_ofs (pages) == 0"
  let r ← get
  set (r.fill page 0xcccccccc)
  assert (page ∈ r.outstanding) "bitmap_all (pool->used_map, page_idx, page_cnt)"
  let r ← get
  set (r.drop page)

/-! ### paging_init -/

section
variable (text : Nat → Bool)

/-- One page of RAM; `text` tells which addresses are kernel code. -/
def mapPage (pd page pt : Nat) : Mem Nat := do
  let paddr := page * pgSize
  let vaddr ← ptov paddr
  let pde ← load (pd + 4 * pdNo vaddr)
  let pt ← if pde = 0 then do
      let pt ← pallocGetPageAssert
      let pde ← pdeCreate pt
      store (pd + 4 * pdNo vaddr) pde
      pure pt
    else pure pt
  let pte ← pteCreateKernel vaddr (!text vaddr)
  store (pt + 4 * ptNo vaddr) pte
  pure pt

def pagingInit : Mem Unit := do
  let pd ← pallocGetPageAssert
  let r ← get
  set { r with initPageDir := pd }
  let _ ← Prog.upto (mapPage text pd) r.initRamPages 0
  pure ()

end

/-! ### Words and addresses -/

theorem pgOfs_eq (va : Nat) : pgOfs va = va % 4096 := by
  unfold pgOfs pgMask
  rw [show (0xfff : Nat) = 2 ^ 12 - 1 from rfl, Nat.and_two_pow_sub_one_eq_mod]

theorem pgNo_eq (va : Nat) : pgNo va = va / 4096 := Nat.shiftRight_eq_div_pow va 12

theorem pdNo_eq (va : Nat) : pdNo va = va / 4194304 := Nat.shiftRight_eq_div_pow va 22

theorem ptNo_eq (va : Nat) : ptNo va = va / 4096 % 1024 := by
  unfold ptNo ptMask
  rw [Nat.shiftRight_and_distrib, show (0x3ff000 : Nat) >>> 12 = 2 ^ 10 - 1 from rfl,
    Nat.and_two_pow_sub_one_eq_mod, Nat.shiftRight_eq_div_pow]

theorem and_pteAddr (x : Nat) : x &&& pteAddr = x / 4096 % 1048576 * 4096 := by
  have split : x &&& pteAddr = ((x >>> 12) &&& (2 ^ 20 - 1)) <<< 12 := by
    apply Nat.eq_of_testBit_eq
    intro i
    have mask : pteAddr = (2 ^ 20 - 1) <<< 12 := rfl
    rw [mask, Nat.testBit_and, Nat.testBit_shiftLeft, Nat.testBit_shiftLeft, Nat.testBit_and,
      Nat.testBit_shiftRight]
    by_cases low : 12 ≤ i
    · simp only [low, decide_true, Bool.true_and, Nat.add_sub_cancel' low]
    · simp [low]
  rw [split, Nat.and_two_pow_sub_one_eq_mod, Nat.shiftRight_eq_div_pow, Nat.shiftLeft_eq]

/-- Flags leave the address of an entry alone. -/
theorem or_and_pteAddr {x flags : Nat} (low : flags &&& pteAddr = 0) :
    (x ||| flags) &&& pteAddr = x &&& pteAddr := by
  rw [Nat.and_or_distrib_right, low, Nat.or_zero]

theorem or_and_pteP {x flags : Nat} (off : flags &&& pteP = 0) :
    (x ||| flags) &&& pteP = x &&& pteP := by
  rw [Nat.and_or_distrib_right, off, Nat.or_zero]

theorem and_and_of_le {x mask bits : Nat} (keeps : mask &&& bits = bits) :
    (x &&& mask) &&& bits = x &&& bits := by
  rw [Nat.and_assoc, keeps]

/-- What `pde_create` returns. -/
def pdeValue (pt : Nat) : Nat := (pt - physBase) ||| pteU ||| pteP ||| pteW

/-- What `pte_create_user` returns. -/
def pteValue (page : Nat) (writable : Bool) : Nat :=
  (page - physBase) ||| pteP ||| (if writable then pteW else 0) ||| pteU

theorem or_pteP_ne_zero (x : Nat) : (x ||| pteP) &&& pteP ≠ 0 := by
  have bit : ((x ||| pteP) &&& pteP).testBit 0 = true := by
    simp [pteP]
  intro zero
  rw [zero] at bit
  cases bit

theorem pdeValue_present (pt : Nat) : pdeValue pt &&& pteP ≠ 0 := by
  unfold pdeValue
  rw [or_and_pteP (by rfl)]
  exact or_pteP_ne_zero _

theorem pdeValue_ne_zero (pt : Nat) : pdeValue pt ≠ 0 := by
  intro zero
  apply pdeValue_present pt
  rw [zero, Nat.zero_and]

theorem pteValue_present (page : Nat) (hw : Bool) : pteValue page hw &&& pteP ≠ 0 := by
  unfold pteValue
  rw [or_and_pteP (by rfl), or_and_pteP (by cases hw <;> rfl)]
  exact or_pteP_ne_zero _

namespace Ram

variable {r : Ram} {page : Nat}

/-- The loader finds at most 64 MB. -/
def Small (r : Ram) : Prop := r.initRamPages ≤ 16384

instance : Decidable r.Small := inferInstanceAs (Decidable (_ ≤ _))

theorem isPage_iff : r.IsPage page ↔
    page % 4096 = 0 ∧ physBase ≤ page ∧ (page - physBase) / 4096 < r.initRamPages := by
  unfold IsPage isKernelVaddr
  rw [pgOfs_eq, Nat.shiftRight_eq_div_pow]

theorem IsPage.aligned (h : r.IsPage page) : page % 4096 = 0 := (isPage_iff.mp h).1

theorem write_word (address value a : Nat) :
    (r.write address value).word a = if a = address then value else r.word a :=
  Function.update_apply ..

theorem fill_word (value a : Nat) :
    (r.fill page value).word a = if pgNo a = pgNo page then value else r.word a := rfl

theorem take_word : (r.answered.take page).word = r.word := rfl

theorem IsPage.address (hs : r.Small) (h : r.IsPage page) :
    (page - physBase) &&& pteAddr = page - physBase := by
  obtain ⟨ha, kernel, hi⟩ := isPage_iff.mp h
  unfold Small at hs
  rw [and_pteAddr]
  unfold physBase at *
  omega

theorem IsPage.pde_address (hs : r.Small) (h : r.IsPage page) :
    pdeValue page &&& pteAddr = page - physBase := by
  unfold pdeValue
  rw [or_and_pteAddr (by rfl), or_and_pteAddr (by rfl), or_and_pteAddr (by rfl), h.address hs]

theorem IsPage.pte_address (hs : r.Small) (h : r.IsPage page) (hw : Bool) :
    pteValue page hw &&& pteAddr = page - physBase := by
  unfold pteValue
  rw [or_and_pteAddr (by rfl), or_and_pteAddr (by cases hw <;> rfl), or_and_pteAddr (by rfl),
    h.address hs]

theorem IsPage.wp_ptov (hs : r.Small) (h : r.IsPage page) {s : σ} {Q : Nat → σ → Prop} :
    Wp (ptov (page - physBase)) Q s ↔ Q page s := by
  obtain ⟨ha, kernel, hi⟩ := isPage_iff.mp h
  unfold Small at hs
  have low : page - physBase < physBase := by unfold physBase at *; omega
  have back : (page - physBase + physBase) % 2 ^ 32 = page := by unfold physBase at *; omega
  simp only [ptov, wp_bind, wp_assert, wp_pure, low, back, true_and]

theorem IsPage.wp_vtop (h : r.IsPage page) {s : σ} {Q : Nat → σ → Prop} :
    Wp (vtop page) Q s ↔ Q (page - physBase) s := by
  simp only [vtop, wp_bind, wp_assert, wp_pure, h.2.1, true_and]

theorem IsPage.wp_pdeCreate (h : r.IsPage page) {s : σ} {Q : Nat → σ → Prop} :
    Wp (pdeCreate page) Q s ↔ Q (pdeValue page) s := by
  simp only [pdeCreate, wp_bind, wp_assert, wp_pure, h.1, h.wp_vtop, true_and, pdeValue]

theorem IsPage.wp_pteCreateUser (h : r.IsPage page) (hw : Bool) {s : σ} {Q : Nat → σ → Prop} :
    Wp (pteCreateUser page hw) Q s ↔ Q (pteValue page hw) s := by
  simp only [pteCreateUser, pteCreateKernel, wp_bind, wp_assert, wp_pure, h.1, h.wp_vtop, true_and,
    pteValue]

theorem IsPage.wp_pdeGetPt (hs : r.Small) (h : r.IsPage page) {s : σ} {Q : Nat → σ → Prop} :
    Wp (pdeGetPt (pdeValue page)) Q s ↔ Q page s := by
  have present := pdeValue_present page
  simp only [pdeGetPt, wp_bind, wp_assert, present, h.pde_address hs, h.wp_ptov hs, true_and,
    ne_eq, not_false_eq_true]

theorem offer_some (h : r.offer = some page) : r.IsPage page ∧ page ∉ r.outstanding := by
  obtain ⟨_, free⟩ := Option.filter_eq_some_iff.mp h
  exact of_decide_eq_true free

end Ram

theorem wp_pallocGetPage {r : Ram} {zero : Bool} {Q : Option Nat → Ram → Prop}
    (fails : Q none r.answered)
    (gives : ∀ page, r.IsPage page → page ∉ r.outstanding → Q (some page)
      (if zero then (r.answered.take page).fill page 0 else r.answered.take page)) :
    Wp (pallocGetPage zero) Q r := by
  unfold pallocGetPage
  simp only [wp_bind, wp_get]
  cases offered : r.offer with
  | none => simpa only [wp_bind, wp_set, wp_pure] using fails
  | some page =>
    obtain ⟨hp, free⟩ := Ram.offer_some offered
    simpa only [wp_bind, wp_set, wp_pure] using gives page hp free

theorem wp_pallocFreePage {r : Ram} {page : Nat} {Q : Unit → Ram → Prop} (ha : pgOfs page = 0)
    (used : page ∈ r.outstanding) (after : Q () ((r.fill page 0xcccccccc).drop page)) :
    Wp (pallocFreePage page) Q r := by
  unfold pallocFreePage
  simp only [wp_bind, wp_get, wp_set, wp_assert]
  exact ⟨ha, used, after⟩

@[simp] theorem wp_load {r : Ram} {address : Nat} {Q : Nat → Ram → Prop} :
    Wp (load address) Q r ↔ Q (r.word address) r := by
  unfold load
  simp only [wp_bind, wp_get, wp_pure]

@[simp] theorem wp_store {r : Ram} {address value : Nat} {Q : Unit → Ram → Prop} :
    Wp (store address value) Q r ↔ Q () (r.write address value) := by
  unfold store
  simp only [wp_bind, wp_get, wp_set]

end Pintos.Paging
