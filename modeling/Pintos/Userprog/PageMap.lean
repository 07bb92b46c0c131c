import Pintos.Lib.Machine
import Pintos.Userprog.PageDir

/-!
# A page directory is a map from pages to frames

The two levels of tables hold one entry for each page. Page tables are pages of their own, so a
change to one entry leaves all others alone.
-/

namespace Pintos.Userprog

open Pintos.Paging Prog Machine Option

/-- A page table entry that maps its page to the frame, or does not map it. -/
def Entry (pte : Nat) : Option Nat → Prop
  | none => pte &&& pteP = 0
  | some kpage => pte &&& pteP ≠ 0 ∧ pte &&& pteAddr = kpage - physBase

def userPages : Nat := 786432

/-- `pd` has the page tables `tables`, which map page number `u` to the frame `frames u`. -/
@[grind cases] structure Maps (r : Ram) (pd : Nat) (tables frames : Nat → Option Nat) : Prop where
  small : r.Small
  directory : r.IsPage pd
  used : pd ∈ r.outstanding
  pde : ∀ i < 1024, r.word (pd + 4 * i) = (tables i).elim 0 pdeValue
  table : ∀ i t, tables i = some t → i < 1024 ∧ r.IsPage t ∧ t ∈ r.outstanding ∧ t ≠ pd
  once : ∀ i j t, tables i = some t → tables j = some t → i = j
  entry : ∀ u < userPages, ∀ t, tables (u / 1024) = some t →
    Entry (r.word (t + 4 * (u % 1024))) (frames u)
  frame : ∀ u kpage, frames u = some kpage →
    u < userPages ∧ r.IsPage kpage ∧ ∃ t, tables (u / 1024) = some t

/-- The directory has got page tables, all of them in the user half, and kept those it had. Pages
in use other than its own are as they were. -/
@[grind cases] structure Grows (r r' : Ram) (pd : Nat) (tables tables' : Nat → Option Nat) :
    Prop where
  obtained : ∃ new, r'.obtained = new ++ r.obtained ∧ r'.outstanding = new ++ r.outstanding ∧
    new.Nodup ∧ ∀ p, p ∈ new ↔ ∃ i, tables i = none ∧ tables' i = some p
  fresh : ∀ i p, tables i = none → tables' i = some p → p ∉ r.outstanding
  others : ∀ p, r.IsPage p → p ∈ r.outstanding → p ≠ pd → (∀ i, tables i ≠ some p) →
    ∀ j < 1024, r'.word (p + 4 * j) = r.word (p + 4 * j)
  released : r'.released = r.released
  outstanding : ∀ p ∈ r.outstanding, p ∈ r'.outstanding
  initPageDir : r'.initPageDir = r.initPageDir
  initRamPages : r'.initRamPages = r.initRamPages
  keeps : ∀ i t, tables i = some t → tables' i = some t
  kernel : ∀ i, pdNo physBase ≤ i → tables' i = tables i

/-- The entries of the kernel's page tables are as they were. -/
def SparesKernel (r r' : Ram) (tables : Nat → Option Nat) : Prop :=
  ∀ i t, pdNo physBase ≤ i → tables i = some t →
    ∀ j < 1024, r'.word (t + 4 * j) = r.word (t + 4 * j)

variable {r r' : Ram} {pd page i j vaddr : Nat} {tables tables' frames : Nat → Option Nat}

/-! ### Addresses -/

theorem pgNo_slot (ha : page % 4096 = 0) (hi : i < 1024) : pgNo (page + 4 * i) = page / 4096 := by
  rw [pgNo_eq]
  omega

theorem slot_inj {page' : Nat} (ha : page % 4096 = 0) (aligned' : page' % 4096 = 0) (hi : i < 1024)
    (inside' : j < 1024) (eq : page + 4 * i = page' + 4 * j) : page = page' ∧ i = j := by
  omega

theorem page_split : pgNo vaddr / 1024 = pdNo vaddr ∧ pgNo vaddr % 1024 = ptNo vaddr := by
  rw [pgNo_eq, pdNo_eq, ptNo_eq]
  omega

theorem page_join (vaddr : Nat) : 1024 * pdNo vaddr + ptNo vaddr = pgNo vaddr := by
  rw [pgNo_eq, pdNo_eq, ptNo_eq]
  omega

theorem ptNo_lt (vaddr : Nat) : ptNo vaddr < 1024 := by
  rw [ptNo_eq]
  omega

theorem pdNo_lt (hf : vaddr < 2 ^ 32) : pdNo vaddr < 1024 := by
  rw [pdNo_eq]
  omega

theorem pdNo_user (user : isUserVaddr vaddr) : pdNo vaddr < pdNo physBase := by
  unfold isUserVaddr at user
  rw [pdNo_eq, pdNo_eq]
  unfold physBase at *
  omega

theorem user_of_pdNo (lower : pdNo vaddr < pdNo physBase) : isUserVaddr vaddr := by
  rw [pdNo_eq, pdNo_eq] at lower
  unfold isUserVaddr
  unfold physBase at *
  omega

theorem pgNo_user (user : isUserVaddr vaddr) : pgNo vaddr < userPages := by
  unfold isUserVaddr physBase at user
  unfold userPages
  rw [pgNo_eq]
  omega

theorem user_fits (user : isUserVaddr vaddr) : vaddr < 2 ^ 32 := by
  unfold isUserVaddr physBase at user
  omega

theorem SparesKernel.trans {r'' : Ram} (first : SparesKernel r r' tables)
    (grows : Grows r r' pd tables tables') (second : SparesKernel r' r'' tables') :
    SparesKernel r r'' tables := by
  intro i t upper is j hi
  rw [second i t upper (grows.keeps i t is) j hi]
  exact first i t upper is j hi

namespace Grows

theorem refl (words : r'.word = r.word) (outstanding : r'.outstanding = r.outstanding)
    (obtained : r'.obtained = r.obtained) (released : r'.released = r.released)
    (initPageDir : r'.initPageDir = r.initPageDir)
    (initRamPages : r'.initRamPages = r.initRamPages) : Grows r r' pd tables tables where
  obtained := by
    refine ⟨[], obtained, outstanding, List.nodup_nil, fun p => ?_⟩
    simp only [List.not_mem_nil, false_iff]
    rintro ⟨i, ha, present⟩
    rw [ha] at present
    cases present
  fresh i p ha present := by
    rw [ha] at present
    cases present
  others _ _ _ _ _ _ _ := by rw [words]
  released := released
  outstanding p mem := by rwa [outstanding]
  initPageDir := initPageDir
  initRamPages := initRamPages
  keeps _ _ h := h
  kernel _ _ := rfl

/-- An entry of a page table changes. -/
theorem write (grows : Grows r r' pd tables tables') {t : Nat} (is : tables' i = some t)
    (hp : r'.IsPage t) (hi : j < 1024) (value : Nat) :
    Grows r (r'.write (t + 4 * j) value) pd tables tables' := by
  refine ⟨grows.obtained, grows.fresh, fun p page used ne outside k inside' => ?_, grows.released,
    grows.outstanding, grows.initPageDir, grows.initRamPages, grows.keeps, grows.kernel⟩
  rw [Ram.write_word, if_neg, grows.others p page used ne outside k inside']
  intro eq
  obtain ⟨rfl, _⟩ := slot_inj page.aligned hp.aligned inside' hi eq
  cases was : tables i with
  | none => exact grows.fresh i p was is used
  | some t =>
    rw [grows.keeps i t was] at is
    cases is
    exact outside i was

end Grows

namespace Maps

theorem pd_ne_zero (hm : Maps r pd tables frames) : pd ≠ 0 := by
  obtain ⟨_, kernel, _⟩ := Ram.isPage_iff.mp hm.directory
  unfold physBase at kernel
  omega

/-- Memory outside the directory and its tables may change. -/
theorem keep (hm : Maps r pd tables frames) (ram : r'.initRamPages = r.initRamPages)
    (outstanding : ∀ p, p = pd ∨ (∃ i, tables i = some p) → p ∈ r.outstanding → p ∈ r'.outstanding)
    (words : ∀ page, page = pd ∨ (∃ i, tables i = some page) → ∀ i < 1024,
      r'.word (page + 4 * i) = r.word (page + 4 * i)) : Maps r' pd tables frames := by
  have pages : ∀ p, r.IsPage p → r'.IsPage p := by
    intro p
    unfold Ram.IsPage
    rw [ram]
    exact id
  constructor
  case small => simpa only [Ram.Small, ram] using hm.small
  case directory => exact pages pd hm.directory
  case used => exact outstanding pd (.inl rfl) hm.used
  case pde =>
    intro i hi
    rw [words pd (.inl rfl) i hi]
    exact hm.pde i hi
  case table => grind
  case once => exact hm.once
  case entry => grind
  case frame => grind

variable {value k flag : Nat}

/-- A write to an entry of a page table changes what its page is mapped to, and nothing else. -/
theorem write (hm : Maps r pd tables frames) {t : Nat} (is : tables i = some t)
    (hi : j < 1024) (target : Option Nat)
    (hf : i < pdNo physBase → Entry value target)
    (page : ∀ kpage, target = some kpage → r.IsPage kpage) :
    Maps (r.write (t + 4 * j) value) pd tables
      (if i < pdNo physBase then Function.update frames (1024 * i + j) target else frames) := by
  obtain ⟨_, hp, _, ne⟩ := hm.table i t is
  have ha : ∀ p k, r.IsPage p → k < 1024 → p ≠ t ∨ k ≠ j →
      (r.write (t + 4 * j) value).word (p + 4 * k) = r.word (p + 4 * k) := by
    intro p k isPage' inside' differ
    rw [Ram.write_word, if_neg]
    intro eq
    obtain ⟨rfl, rfl⟩ := slot_inj isPage'.aligned hp.aligned inside' hi eq
    simp at differ
  constructor
  case small => exact hm.small
  case directory => exact hm.directory
  case used => exact hm.used
  case pde => grind
  case table => exact hm.table
  case once => exact hm.once
  case entry =>
    intro u user t' is'
    have low : u % 1024 < 1024 := Nat.mod_lt u (by omega)
    by_cases here : u = 1024 * i + j
    · have number : u / 1024 = i ∧ u % 1024 = j := by omega
      have lower : i < pdNo physBase := by
        unfold userPages at user
        rw [pdNo_eq]
        unfold physBase
        omega
      rw [number.1, is] at is'
      cases is'
      rw [if_pos lower, here, Function.update_self, ← here, number.2, Ram.write_word, if_pos rfl]
      exact hf lower
    · grind
  case frame =>
    intro u kpage is'
    split_ifs at is' with lower
    · by_cases here : u = 1024 * i + j
      · rw [here, Function.update_self] at is'
        have number : u / 1024 = i := by omega
        refine ⟨?_, page kpage is', t, by rw [number, is]⟩
        rw [pdNo_eq] at lower
        unfold physBase at lower
        unfold userPages
        omega
      · rw [Function.update_of_ne here] at is'
        exact hm.frame u kpage is'
    · exact hm.frame u kpage is'

/-- The memory after a page table has been added to a directory. -/
def withTable (r : Ram) (pd i t : Nat) : Ram :=
  ((r.answered.take t).fill t 0).write (pd + 4 * i) (pdeValue t)

theorem withTable_word {t p : Nat} (hi : i < 1024) (hp : r.IsPage t)
    (directory : r.IsPage pd) (differs : p ≠ t) (isPage' : r.IsPage p) (inside' : k < 1024)
    (ne : p ≠ pd ∨ k ≠ i) : (withTable r pd i t).word (p + 4 * k) = r.word (p + 4 * k) := by
  have elsewhere : p + 4 * k ≠ pd + 4 * i := by
    intro eq
    obtain ⟨rfl, rfl⟩ := slot_inj isPage'.aligned directory.aligned inside' hi eq
    simp at ne
  have pages : pgNo (p + 4 * k) ≠ pgNo t := by
    rw [pgNo_slot isPage'.aligned inside', pgNo_eq]
    have := hp.aligned
    have := isPage'.aligned
    omega
  rw [withTable, Ram.write_word, if_neg elsewhere, Ram.fill_word, if_neg pages, Ram.take_word]

theorem withTable_zero {t : Nat} (hi : i < 1024) (hp : r.IsPage t) (directory : r.IsPage pd)
    (ne : t ≠ pd) (inside' : k < 1024) : (withTable r pd i t).word (t + 4 * k) = 0 := by
  have elsewhere : t + 4 * k ≠ pd + 4 * i := by
    intro eq
    exact ne (slot_inj hp.aligned directory.aligned inside' hi eq).1
  rw [withTable, Ram.write_word, if_neg elsewhere, Ram.fill_word, if_pos]
  rw [pgNo_slot hp.aligned inside', pgNo_eq]

section
variable (hm : Maps r pd tables frames)
include hm

theorem known {t : Nat} (free : t ∉ r.outstanding) :
    t ≠ pd ∧ ∀ k t', tables k = some t' → t' ≠ t := by
  grind

/-- A new page table, filled with zeros. -/
theorem addTable {t : Nat} (hi : i < 1024)
    (absent : tables i = none) (hp : r.IsPage t) (free : t ∉ r.outstanding) :
    Maps (withTable r pd i t) pd (Function.update tables i (some t)) frames := by
  obtain ⟨ne, known⟩ := hm.known free
  constructor
  case small => exact hm.small
  case directory => exact hm.directory
  case used => exact List.mem_cons_of_mem t hm.used
  case pde =>
    intro k inside'
    by_cases here : k = i
    · subst here
      rw [Function.update_self, withTable, Ram.write_word, if_pos rfl, elim_some]
    · rw [Function.update_of_ne here, withTable_word hi hp hm.directory ne.symm
        hm.directory inside' (.inr here)]
      exact hm.pde k inside'
  case table =>
    intro k t' is
    by_cases here : k = i
    · subst here
      rw [Function.update_self] at is
      cases is
      exact ⟨hi, hp, (.head _), ne⟩
    · rw [Function.update_of_ne here] at is
      obtain ⟨inside', isPage', used, other'⟩ := hm.table k t' is
      exact ⟨inside', isPage', List.mem_cons_of_mem t used, other'⟩
  case once => grind
  case entry =>
    intro u user t' is
    have low : u % 1024 < 1024 := Nat.mod_lt u (by omega)
    by_cases here : u / 1024 = i
    · rw [here, Function.update_self] at is
      cases is
      rw [withTable_zero hi hp hm.directory ne low]
      cases mapped : frames u with
      | none => rfl
      | some kpage => grind
    · rw [Function.update_of_ne here] at is
      obtain ⟨_, isPage', _, other'⟩ := hm.table _ _ is
      rw [withTable_word hi hp hm.directory (known _ _ is) isPage' low (.inl other')]
      exact hm.entry u user t' is
  case frame =>
    intro u kpage is
    obtain ⟨user, isPage', t', has⟩ := hm.frame u kpage is
    refine ⟨user, isPage', t', ?_⟩
    rw [Function.update_of_ne]
    · exact has
    · rintro rfl
      rw [absent] at has
      cases has

theorem withTable_spares {t : Nat} (hi : i < 1024)
    (hp : r.IsPage t) (free : t ∉ r.outstanding) : SparesKernel r (withTable r pd i t) tables := by
  intro k t' _ is j inside'
  obtain ⟨_, isPage', _, ne⟩ := hm.table k t' is
  exact withTable_word hi hp hm.directory ((hm.known free).2 k t' is) isPage' inside'
    (.inl ne)

theorem grows_withTable {t : Nat} (lower : i < pdNo physBase)
    (hi : i < 1024) (ha : tables i = none) (hp : r.IsPage t) (free : t ∉ r.outstanding) :
    Grows r (withTable r pd i t) pd tables (Function.update tables i (some t)) := by
  have only : ∀ k p, tables k = none → Function.update tables i (some t) k = some p → p = t := by
    grind
  constructor
  case obtained =>
    refine ⟨[t], rfl, rfl, by simp, fun p => ?_⟩
    rw [List.mem_singleton]
    constructor
    · rintro rfl
      exact ⟨i, ha, Function.update_self ..⟩
    · exact fun ⟨k, missing, is⟩ => only k p missing is
  case fresh =>
    intro k p missing is
    rw [only k p missing is]
    exact free
  case others =>
    intro p page used ne _ j inside'
    have differs : p ≠ t := by
      rintro rfl
      exact free used
    exact withTable_word hi hp hm.directory differs page inside' (.inl ne)
  case released => rfl
  case outstanding => exact fun _ mem => List.mem_cons_of_mem t mem
  case initPageDir => rfl
  case initRamPages => rfl
  case keeps => grind
  case kernel => exact fun k upper => Function.update_of_ne (by omega) _ _

end

/-! ### Lookup -/

section
variable (hm : Maps r pd tables frames) {Q : Option Nat → Ram → Prop}
include hm

theorem wp_entryIn {t : Nat} (hf : vaddr < 2 ^ 32) (is : tables (pdNo vaddr) = some t) :
    Wp (entryIn (pd + 4 * pdNo vaddr) vaddr) Q r ↔ Q (some (t + 4 * ptNo vaddr)) r := by
  have hp := (hm.table _ t is).2.1
  have pde : r.word (pd + 4 * pdNo vaddr) = pdeValue t := by
    rw [hm.pde _ (pdNo_lt hf), is, elim_some]
  simp only [entryIn, wp_bind, wp_load, wp_pure, pde, hp.wp_pdeGetPt hm.small]

theorem wp_lookupPage (hf : vaddr < 2 ^ 32) : Wp (lookupPage pd vaddr false) Q r ↔
      Q ((tables (pdNo vaddr)).map (· + 4 * ptNo vaddr)) r := by
  have pde := hm.pde _ (pdNo_lt hf)
  unfold lookupPage
  cases is : tables (pdNo vaddr) with
  | none =>
    rw [is, elim_none] at pde
    simp [pde, hm.pd_ne_zero]
  | some t =>
    rw [is, elim_some] at pde
    simp [pde, hm.pd_ne_zero, pdeValue_ne_zero, hm.wp_entryIn hf is]

/-- A missing page table is added, unless there is no page for it. -/
theorem wp_lookupPage_create
    (user : isUserVaddr vaddr) : Wp (lookupPage pd vaddr true) (fun pte r' => ∃ tables',
      Maps r' pd tables' frames ∧ Grows r r' pd tables tables' ∧ SparesKernel r r' tables ∧
      pte = (tables' (pdNo vaddr)).map (· + 4 * ptNo vaddr)) r := by
  have hf := user_fits user
  have pde := hm.pde _ (pdNo_lt hf)
  unfold lookupPage
  cases is : tables (pdNo vaddr) with
  | some t =>
    rw [is, elim_some] at pde
    simp only [wp_bind, wp_assert, wp_load, pde, pdeValue_ne_zero, hm.pd_ne_zero, user, or_true,
      ne_eq, not_false_eq_true, true_and, if_false, hm.wp_entryIn hf is]
    refine ⟨tables, hm, .refl rfl rfl rfl rfl rfl rfl, fun _ _ _ _ _ _ => rfl, ?_⟩
    rw [is, map_some]
  | none =>
    rw [is, elim_none] at pde
    simp only [wp_bind, wp_assert, wp_load, pde, hm.pd_ne_zero, user, or_true, ne_eq,
      not_false_eq_true, true_and, if_true]
    apply wp_pallocGetPage
    · rw [wp_pure]
      refine ⟨tables, ?_, .refl rfl rfl rfl rfl rfl rfl, fun _ _ _ _ _ _ => rfl, by rw [is]; rfl⟩
      exact hm.keep rfl (fun _ _ h => h) fun _ _ _ _ => rfl
    · intro t hp free
      have added := hm.addTable (pdNo_lt hf) is hp free
      have now : Function.update tables (pdNo vaddr) (some t) (pdNo vaddr) = some t :=
        Function.update_self ..
      simp only [if_true, wp_bind, wp_store, hp.wp_pdeCreate]
      apply (added.wp_entryIn hf now).mpr
      refine ⟨_, added, ?_, ?_, by rw [now, map_some]⟩
      · exact hm.grows_withTable (pdNo_user user) (pdNo_lt hf) is hp free
      · exact hm.withTable_spares (pdNo_lt hf) hp free

/-- The entry of a page table for the page of an address. -/
theorem entry_at {t : Nat} (user : isUserVaddr vaddr) (is : tables (pdNo vaddr) = some t) :
    Entry (r.word (t + 4 * ptNo vaddr)) (frames (pgNo vaddr)) := by
  have := hm.entry (pgNo vaddr) (pgNo_user user) t (by rw [page_split.1, is])
  rwa [page_split.2] at this

theorem write_at {t : Nat} (user : isUserVaddr vaddr)
    (is : tables (pdNo vaddr) = some t) {target : Option Nat} (hf : Entry value target)
    (page : ∀ kpage, target = some kpage → r.IsPage kpage) :
    Maps (r.write (t + 4 * ptNo vaddr) value) pd tables
      (Function.update frames (pgNo vaddr) target) := by
  have := hm.write is (ptNo_lt vaddr) target (fun _ => hf) page
  rwa [if_pos (pdNo_user user), page_join] at this

theorem spares_write {t : Nat} (user : isUserVaddr vaddr) (is : tables (pdNo vaddr) = some t) :
    SparesKernel r (r.write (t + 4 * ptNo vaddr) value) tables := by
  intro k t' upper is' j hi
  rw [Ram.write_word, if_neg]
  intro eq
  obtain ⟨rfl, _⟩ := slot_inj (hm.table k t' is').2.1.aligned (hm.table _ t is).2.1.aligned hi
    (ptNo_lt vaddr) eq
  have := hm.once _ _ _ is is'
  have := pdNo_user user
  omega

theorem frames_none (ha : tables (pdNo vaddr) = none) : frames (pgNo vaddr) = none := by
  cases mapped : frames (pgNo vaddr) with
  | none => rfl
  | some kpage =>
    obtain ⟨_, _, t, has⟩ := hm.frame _ kpage mapped
    rw [page_split.1, ha] at has
    cases has

end

/-! ### The calls -/

section
variable (hm : Maps r pd tables frames) {uaddr upage : Nat}
include hm

theorem wp_pagedirGetPage (user : isUserVaddr uaddr)
    {Q : Option Nat → Ram → Prop} : Wp (pagedirGetPage pd uaddr) Q r ↔
      Q ((frames (pgNo uaddr)).map (· + pgOfs uaddr)) r := by
  simp only [pagedirGetPage, wp_bind, wp_assert, user, true_and, hm.wp_lookupPage (user_fits user)]
  cases is : tables (pdNo uaddr) with
  | none => simp [hm.frames_none is]
  | some t =>
    have entry := hm.entry_at user is
    cases mapped : frames (pgNo uaddr) with
    | none =>
      rw [mapped] at entry
      have ha : r.word (t + 4 * ptNo uaddr) &&& pteP = 0 := entry
      simp [ha]
    | some kpage =>
      rw [mapped] at entry
      obtain ⟨present, address⟩ := entry
      have hp := (hm.frame _ kpage mapped).2.1
      simp [present, pteGetPage, address, hp.wp_ptov hm.small]

theorem runs_pagedirGetPage :
    Runs (isUserVaddr uaddr) (pagedirGetPage pd uaddr)
      (fun found r' => found = (frames (pgNo uaddr)).map (· + pgOfs uaddr) ∧ r' = r) r := by
  by_cases user : isUserVaddr uaddr
  · exact ((hm.wp_pagedirGetPage user).mpr ⟨rfl, rfl⟩).runs
  · exact .bind (.assert id fun user' => absurd user' user)

theorem runs_pagedirSetPage (own : pd ≠ r.initPageDir) {kpage : Nat} {hw : Bool} :
    Runs (pgOfs upage = 0 ∧ isUserVaddr upage ∧ r.IsPage kpage ∧ frames (pgNo upage) = none)
      (pagedirSetPage pd upage kpage hw)
      (fun done r' => ∃ tables', Maps r' pd tables'
          (if done then Function.update frames (pgNo upage) (some kpage) else frames) ∧
        Grows r r' pd tables tables' ∧ SparesKernel r r' tables) r := by
  refine .bind (.assert And.left fun _ => ?_)
  refine .bind (.assert (fun ok => ok.2.2.1.1) fun ha => ?_)
  refine .bind (.assert (fun ok => ok.2.1) fun user => ?_)
  refine .bind (.get (.bind (.bind (.assert (fun ok => ok.2.2.1.2.1) fun kernel => .pure ?_))))
  refine .bind (.assert (fun ok => ok.2.2.1.2.2) fun hi => ?_)
  have hp : r.IsPage kpage := ⟨ha, kernel, hi⟩
  refine .bind (.assert (fun _ => own) fun _ => ?_)
  refine .bind ((hm.wp_lookupPage_create user).runs.mono ?_)
  rintro pte r' ⟨tables', maps', grows, spares, rfl⟩
  cases is : tables' (pdNo upage) with
  | none => exact .pure ⟨tables', maps', grows, spares⟩
  | some t =>
    have entry := maps'.entry_at user is
    have isPage' : r'.IsPage kpage := by
      unfold Ram.IsPage
      rw [grows.initRamPages]
      exact hp
    refine .bind (.bind (.get (.pure ?_)))
    refine .bind (.assert ?_ fun _ => ?_)
    · intro ok
      rw [ok.2.2.2] at entry
      exact entry
    · apply Wp.runs
      simp only [wp_bind, hp.wp_pteCreateUser, wp_store, wp_pure, if_true]
      refine ⟨tables', ?_, grows.write is (maps'.table _ t is).2.1 (ptNo_lt upage) _, ?_⟩
      · apply maps'.write_at user is
        · exact ⟨pteValue_present kpage hw, hp.pte_address hm.small hw⟩
        · rintro _ ⟨⟩
          exact isPage'
      · exact spares.trans grows (maps'.spares_write user is)

theorem runs_pagedirClearPage :
    Runs (pgOfs upage = 0 ∧ isUserVaddr upage) (pagedirClearPage pd upage)
      (fun _ r' => Maps r' pd tables (Function.update frames (pgNo upage) none) ∧
        Grows r r' pd tables tables ∧ SparesKernel r r' tables) r := by
  refine .bind (.assert And.left fun _ => ?_)
  refine .bind (.assert And.right fun user => ?_)
  apply Wp.runs
  simp only [wp_bind, hm.wp_lookupPage (user_fits user)]
  have eq : frames (pgNo upage) = none → Function.update frames (pgNo upage) none = frames := by
    intro ha
    rw [← ha, Function.update_eq_self]
  cases is : tables (pdNo upage) with
  | none =>
    simp only [map_none, wp_pure]
    rw [eq (hm.frames_none is)]
    exact ⟨hm, .refl rfl rfl rfl rfl rfl rfl, fun _ _ _ _ _ _ => rfl⟩
  | some t =>
    have entry := hm.entry_at user is
    simp only [map_some, wp_bind, wp_load]
    split_ifs with present
    · rw [wp_store]
      refine ⟨?_, .write (.refl rfl rfl rfl rfl rfl rfl) is (hm.table _ t is).2.1 (ptNo_lt upage) _,
        hm.spares_write user is⟩
      apply hm.write_at user is
      · show _ &&& _ = 0
        rw [Nat.and_assoc]
        exact Nat.and_zero _
      · rintro _ ⟨⟩
    · rw [wp_pure]
      cases mapped : frames (pgNo upage) with
      | none =>
        rw [eq mapped]
        exact ⟨hm, .refl rfl rfl rfl rfl rfl rfl, fun _ _ _ _ _ _ => rfl⟩
      | some kpage =>
        rw [mapped] at entry
        exact absurd entry.1 present

end

/-- A flag that is neither the present bit nor part of the address. -/
structure IsFlag (flag : Nat) : Prop where
  present : flag &&& pteP = 0
  address : flag &&& pteAddr = 0
  rest_present : (2 ^ 32 - 1 - flag) &&& pteP = pteP
  rest_address : (2 ^ 32 - 1 - flag) &&& pteAddr = pteAddr

theorem isFlag_pteD : IsFlag pteD := ⟨rfl, rfl, rfl, rfl⟩

theorem isFlag_pteA : IsFlag pteA := ⟨rfl, rfl, rfl, rfl⟩

theorem IsFlag.entry {pte : Nat} (isFlag : IsFlag flag) (on : Bool) {target : Option Nat}
    (entry : Entry pte target) :
    Entry (if on then pte ||| flag else pte &&& (2 ^ 32 - 1 - flag)) target := by
  have bits : (if on then pte ||| flag else pte &&& (2 ^ 32 - 1 - flag)) &&& pteP = pte &&& pteP ∧
      (if on then pte ||| flag else pte &&& (2 ^ 32 - 1 - flag)) &&& pteAddr = pte &&& pteAddr := by
    cases on with
    | true => exact ⟨or_and_pteP isFlag.present, or_and_pteAddr isFlag.address⟩
    | false => exact ⟨and_and_of_le isFlag.rest_present, and_and_of_le isFlag.rest_address⟩
  cases target with
  | none =>
    show _ &&& _ = 0
    rw [bits.1]
    exact entry
  | some kpage =>
    show _ &&& _ ≠ 0 ∧ _ &&& _ = _
    rw [bits.1, bits.2]
    exact entry

/-- The flags of pages, also of kernel pages, have no part in the map. -/
theorem wp_setFlag (hm : Maps r pd tables frames) {vpage : Nat} (isFlag : IsFlag flag)
    (hf : vpage < 2 ^ 32) (on : Bool) : Wp (setFlag flag pd vpage on)
      (fun _ r' => Maps r' pd tables frames ∧ Grows r r' pd tables tables ∧
        (isUserVaddr vpage → SparesKernel r r' tables)) r := by
  simp only [setFlag, wp_bind, hm.wp_lookupPage hf]
  cases is : tables (pdNo vpage) with
  | none =>
    simp only [map_none, wp_pure]
    exact ⟨hm, .refl rfl rfl rfl rfl rfl rfl, fun _ _ _ _ _ _ _ => rfl⟩
  | some t =>
    simp only [map_some, wp_bind, wp_load, wp_store]
    refine ⟨?_, .write (.refl rfl rfl rfl rfl rfl rfl) is (hm.table _ t is).2.1 (ptNo_lt vpage) _,
      fun user => hm.spares_write user is⟩
    have eq := hm.write is (ptNo_lt vpage) (frames (pgNo vpage))
      (fun lower => isFlag.entry on (hm.entry_at (user_of_pdNo lower) is))
      fun kpage mapped => (hm.frame _ kpage mapped).2.1
    rw [page_join, Function.update_eq_self, ite_self] at eq
    exact eq

end Maps

end Pintos.Userprog
