import Pintos.Userprog.PageRelease

/-!
# Page directories over whole runs

`paging_init` maps all of RAM in the kernel's half of one directory. `pagedir_create` copies it, and
any sequence of calls on the copy keeps to the map from pages to frames.
-/

namespace Pintos.Userprog

open Pintos.Paging Prog Machine Function Option

/-- The kernel's directory: no page table in the user half. -/
@[grind cases] structure KernelDir (r : Ram) (tables : Nat → Option Nat) : Prop where
  maps : Maps r r.initPageDir tables (fun _ => none)
  kernel : ∀ i < pdNo physBase, tables i = none

inductive PageCall where
  | setPage (upage kpage : UInt32) (writable : Bool)
  | getPage (uaddr : UInt32)
  | clearPage (upage : UInt32)
  | setDirty (vpage : UInt32) (dirty : Bool)
  | setAccessed (vpage : UInt32) (accessed : Bool)

namespace PageCall

def vaddr : PageCall → Nat
  | setPage upage _ _ => upage.toNat
  | getPage uaddr => uaddr.toNat
  | clearPage upage => upage.toNat
  | setDirty vpage _ => vpage.toNat
  | setAccessed vpage _ => vpage.toNat

/-- Runs the call. The result is the map from page numbers to frames after it. -/
def code (pd : Nat) (frames : Nat → Option Nat) : PageCall → Mem (Nat → Option Nat)
  | setPage upage kpage writable => do
    let done ← pagedirSetPage pd upage.toNat kpage.toNat writable
    pure (if done then update frames (pgNo upage.toNat) (some kpage.toNat) else frames)
  | getPage uaddr => do
    let _ ← pagedirGetPage pd uaddr.toNat
    pure frames
  | clearPage upage => do
    pagedirClearPage pd upage.toNat
    pure (update frames (pgNo upage.toNat) none)
  | setDirty vpage dirty => do
    pagedirSetDirty pd vpage.toNat dirty
    pure frames
  | setAccessed vpage accessed => do
    pagedirSetAccessed pd vpage.toNat accessed
    pure frames

end PageCall

/-- A page directory, with the pages that were last set and not cleared. -/
structure PageDir where
  ram : Ram
  pd : Nat
  frames : Nat → Option Nat

def PageDir.step (d : PageDir) (call : PageCall) : Option PageDir :=
  match call.code d.pd d.frames d.ram with
  | .ok (frames, ram) => some { d with ram, frames }
  | .error _ => none

variable {r r' : Ram} {pd : Nat} {tables tables' frames : Nat → Option Nat}

/-! ### paging_init -/

theorem runs_pallocGetPageAssert {Q : Nat → Ram → Prop}
    (gives : ∀ page, r.IsPage page → page ∉ r.outstanding →
      Q page ((r.answered.take page).fill page 0)) : Runs False pallocGetPageAssert Q r := by
  refine .bind (wp_pallocGetPage ?_ ?_).runs
  · exact .throw id
  · intro page hp free
    exact .pure (gives page hp free)

namespace KernelDir

theorem upper (dir : KernelDir r tables) {i t : Nat} (is : tables i = some t) :
    pdNo physBase ≤ i := by
  by_contra lower
  rw [dir.kernel i (by omega)] at is
  cases is

theorem write (dir : KernelDir r tables) {i j t : Nat} (is : tables i = some t) (hi : j < 1024)
    (value : Nat) : KernelDir (r.write (t + 4 * j) value) tables := by
  have high := dir.upper is
  refine ⟨?_, dir.kernel⟩
  have hm : Maps (r.write (t + 4 * j) value) r.initPageDir tables _ :=
    dir.maps.write is hi none (fun lower => by omega) (by simp)
  rwa [if_neg (by omega)] at hm

theorem addTable (dir : KernelDir r tables) {i t : Nat} (upper : pdNo physBase ≤ i) (hi : i < 1024)
    (ha : tables i = none) (hp : r.IsPage t) (free : t ∉ r.outstanding) :
    KernelDir (Maps.withTable r r.initPageDir i t) (update tables i (some t)) := by
  refine ⟨dir.maps.addTable hi ha hp free, ?_⟩
  intro j lower
  rw [update_of_ne (by omega)]
  exact dir.kernel j lower

end KernelDir

/-- What holds before page number `page` of RAM is mapped. -/
structure Mapping (ramPages pd page pt : Nat) (r : Ram) : Prop where
  initPageDir : r.initPageDir = pd
  initRamPages : r.initRamPages = ramPages
  dir : ∃ tables, KernelDir r tables ∧ (page = 0 → ∀ i, tables i = none) ∧
    (0 < page → ∃ i, tables i = some pt)

theorem runs_mapPage {text : Nat → Bool} {ramPages page pt : Nat}
    (now : Mapping ramPages pd page pt r)
    (hi : page < ramPages) :
    Runs False (mapPage text pd page pt) (Mapping ramPages pd (page + 1)) r := by
  obtain ⟨rfl, rfl, tables, dir, empty, last⟩ := now
  have hs := dir.maps.small
  unfold Ram.Small at hs
  have low : page * pgSize < physBase := by unfold pgSize physBase; omega
  have address : (page * pgSize + physBase) % 2 ^ 32 = page * 4096 + physBase := by
    unfold pgSize physBase
    omega
  have vaddrPage : r.IsPage (page * 4096 + physBase) := by
    rw [Ram.isPage_iff]
    unfold physBase
    omega
  have hf : pdNo (page * 4096 + physBase) < 1024 := by
    rw [pdNo_eq]
    unfold physBase
    omega
  have upper : pdNo physBase ≤ pdNo (page * 4096 + physBase) := by
    rw [pdNo_eq, pdNo_eq]
    omega
  have pde := dir.maps.pde _ hf
  have finish : ∀ pt' r' tables' i, r'.initPageDir = r.initPageDir →
      r'.initRamPages = r.initRamPages → KernelDir r' tables' → tables' i = some pt' →
      Wp (do
        let pte ← pteCreateKernel (page * 4096 + physBase) (!text (page * 4096 + physBase))
        store (pt' + 4 * ptNo (page * 4096 + physBase)) pte
        pure pt') (Mapping r.initRamPages r.initPageDir (page + 1)) r' := by
    intro pt' r' tables' i sameDir sameRam dir' is
    simp only [pteCreateKernel, wp_bind, wp_assert, vaddrPage.1, vaddrPage.wp_vtop, wp_pure,
      wp_store,
      true_and]
    exact ⟨sameDir, sameRam, tables', dir'.write is (ptNo_lt _) _, by simp, fun _ => ⟨i, is⟩⟩
  refine .bind (.bind (.assert (fun _ => low) fun _ => .pure ?_))
  rw [address]
  refine .bind (.bind (.get (.pure ?_)))
  cases is : tables (pdNo (page * 4096 + physBase)) with
  | none =>
    rw [is, elim_none] at pde
    rw [pde, if_pos rfl]
    refine .bind (runs_pallocGetPageAssert fun t hp free => ?_)
    apply Wp.runs
    simp only [wp_bind, hp.wp_pdeCreate, wp_store, wp_pure]
    have added := dir.addTable upper hf is hp free
    have rest := finish t (Maps.withTable r r.initPageDir (pdNo (page * 4096 + physBase)) t) _ _
      rfl rfl added (update_self ..)
    simp only [wp_bind, wp_store, wp_pure] at rest
    exact rest
  | some t =>
    rw [is, elim_some] at pde
    rw [pde, if_neg (pdeValue_ne_zero t)]
    have later : 0 < page := by
      apply Nat.pos_of_ne_zero
      intro first
      rw [empty first] at is
      cases is
    obtain ⟨i, is'⟩ := last later
    exact .bind (.pure (finish pt r tables i rfl rfl dir is').runs)

/-- Before the first page is mapped the directory is empty. -/
theorem emptyDir {page : Nat} (small : r.Small) (hp : r.IsPage page) :
    Mapping r.initRamPages page 0 0
      { (r.answered.take page).fill page 0 with initPageDir := page } := by
  refine ⟨rfl, rfl, fun _ => none, ⟨?_, fun _ _ => rfl⟩, fun _ _ => rfl, by simp⟩
  constructor
  case small => exact small
  case directory => exact hp
  case used => exact (.head _)
  case pde =>
    intro i hi
    show ((r.answered.take page).fill page 0).word _ = _
    rw [Ram.fill_word, if_pos]
    · rfl
    · rw [pgNo_slot hp.aligned hi, pgNo_eq]
  case table => simp
  case once => simp
  case entry => simp
  case frame => simp

theorem runs_pagingInit (hs : r.Small) (text : Nat → Bool) :
    Runs False (pagingInit text) (fun _ r' => ∃ tables, KernelDir r' tables) r := by
  refine .bind (runs_pallocGetPageAssert fun page hp free => ?_)
  refine .bind (.get (.bind (.set ?_)))
  refine .bind (.mono (.upto (emptyDir hs hp) ?_) ?_)
  · intro i hi pt r' now
    exact runs_mapPage now hi
  · rintro pt r' ⟨_, _, tables, dir, _, _⟩
    exact .pure ⟨tables, dir⟩

/-! ### pagedir_create -/

/-- A page table that the kernel's directory points to. -/
def KernelTable (kernel : Ram) (t : Nat) : Prop :=
  kernel.IsPage t ∧ ∃ i < 1024, kernel.word (kernel.initPageDir + 4 * i) = pdeValue t

/-- Whatever else the kernel has done since, its directory and page tables are in use and the
directory is as it was. -/
structure Elapses (kernel start : Ram) : Prop where
  initPageDir : start.initPageDir = kernel.initPageDir
  initRamPages : start.initRamPages = kernel.initRamPages
  word : ∀ i < 1024, start.word (kernel.initPageDir + 4 * i) = kernel.word
    (kernel.initPageDir + 4 * i)
  used : kernel.initPageDir ∈ start.outstanding
  tables : ∀ t, KernelTable kernel t → t ∈ start.outstanding

theorem KernelDir.kernelTable_iff (dir : KernelDir r tables) {t : Nat} :
    KernelTable r t ↔ ∃ i, tables i = some t := by
  constructor
  · rintro ⟨hp, i, hi, value⟩
    rw [dir.maps.pde i hi] at value
    cases is : tables i with
    | none =>
      rw [is, elim_none] at value
      exact absurd value.symm (pdeValue_ne_zero t)
    | some t' =>
      rw [is, elim_some] at value
      have isPage' := (dir.maps.table i t' is).2.1
      have address := isPage'.pde_address dir.maps.small
      rw [value, hp.pde_address dir.maps.small] at address
      have := hp.2.1
      have := isPage'.2.1
      unfold isKernelVaddr at *
      exact ⟨i, by rw [is, show t' = t by omega]⟩
  · rintro ⟨i, is⟩
    obtain ⟨hi, hp, _⟩ := dir.maps.table i t is
    exact ⟨hp, i, hi, by rw [dir.maps.pde i hi, is, elim_some]⟩

theorem KernelDir.elapse {start : Ram} (dir : KernelDir r tables) (elapses : Elapses r start) :
    KernelDir start tables := by
  have pages : ∀ p, r.IsPage p → start.IsPage p := by
    intro p
    unfold Ram.IsPage
    rw [elapses.initRamPages]
    exact id
  refine ⟨?_, dir.kernel⟩
  rw [elapses.initPageDir]
  constructor
  case small => simpa only [Ram.Small, elapses.initRamPages] using dir.maps.small
  case directory => exact pages _ dir.maps.directory
  case used => exact elapses.used
  case pde =>
    intro i hi
    rw [elapses.word i hi]
    exact dir.maps.pde i hi
  case table =>
    intro i t is
    obtain ⟨hi, hp, _, ne⟩ := dir.maps.table i t is
    exact ⟨hi, pages t hp, elapses.tables t (dir.kernelTable_iff.mpr ⟨i, is⟩), ne⟩
  case once => exact dir.maps.once
  case entry =>
    intro u user t is
    have := dir.upper is
    unfold userPages at user
    rw [pdNo_eq] at this
    unfold physBase at this
    omega
  case frame => simp

/-- A new directory has the kernel's page tables and maps no page. -/
@[grind cases] structure NewDir (r : Ram) (pd : Nat) (tables : Nat → Option Nat) (r' : Ram) :
    Prop where
  maps : Maps r' pd tables (fun _ => none)
  own : pd ≠ r'.initPageDir
  isPage : r.IsPage pd
  free : pd ∉ r.outstanding
  obtained : r'.obtained = pd :: r.obtained
  outstanding : r'.outstanding = pd :: r.outstanding
  released : r'.released = r.released
  initRamPages : r'.initRamPages = r.initRamPages

theorem KernelDir.wp_pagedirCreate (dir : KernelDir r tables) :
    Wp pagedirCreate (fun found r' =>
      (found = none → r' = r.answered) ∧ ∀ pd, found = some pd → NewDir r pd tables r') r := by
  unfold pagedirCreate
  rw [wp_bind]
  apply wp_pallocGetPage
  · simp
  · intro pd hp free
    simp only [wp_bind, wp_get, wp_set, wp_pure]
    refine ⟨by simp, ?_⟩
    rintro _ ⟨⟩
    obtain ⟨ne, known⟩ := dir.maps.known free
    refine ⟨?_, ne, hp, free, rfl, rfl, rfl, rfl⟩
    constructor
    case small => exact dir.maps.small
    case directory => exact hp
    case used => exact (.head _)
    case pde =>
      intro i hi
      rw [← dir.maps.pde i hi]
      have here : pgNo (pd + 4 * i) = pgNo pd := by
        rw [pgNo_slot hp.aligned hi, pgNo_eq]
      have offset : pgOfs (pd + 4 * i) = 4 * i := by
        have := hp.aligned
        rw [pgOfs_eq]
        omega
      show (if pgNo (pd + 4 * i) = pgNo pd then r.word (r.initPageDir + pgOfs (pd + 4 * i))
        else _) = _
      rw [if_pos here, offset]
    case table =>
      intro i t is
      obtain ⟨hi, isPage', used, _⟩ := dir.maps.table i t is
      exact ⟨hi, isPage', List.mem_cons_of_mem pd used, known i t is⟩
    case once => exact dir.maps.once
    case entry =>
      intro u user t is
      have := dir.upper is
      unfold userPages at user
      rw [pdNo_eq] at this
      unfold physBase at this
      omega
    case frame => simp

/-! ### Calls -/

theorem Maps.runs_code (hm : Maps r pd tables frames) (own : pd ≠ r.initPageDir) (call : PageCall) :
    Runs False (call.code pd frames) (fun frames' r' => ∃ tables', Maps r' pd tables' frames' ∧
      Grows r r' pd tables tables' ∧ (isUserVaddr call.vaddr → SparesKernel r r' tables)) r := by
  cases call with
  | setPage upage kpage hw =>
    refine .bind (((hm.runs_pagedirSetPage own).weaken False.elim).mono ?_)
    rintro done r' ⟨tables', maps', grows, spares⟩
    exact .pure ⟨tables', maps', grows, fun _ => spares⟩
  | getPage uaddr =>
    refine .bind ((hm.runs_pagedirGetPage.weaken False.elim).mono ?_)
    rintro _ _ ⟨_, rfl⟩
    exact .pure ⟨tables, hm, .refl rfl rfl rfl rfl rfl rfl, fun _ _ _ _ _ _ _ => rfl⟩
  | clearPage upage =>
    refine .bind ((hm.runs_pagedirClearPage.weaken False.elim).mono ?_)
    rintro _ r' ⟨maps', grows, spares⟩
    exact .pure ⟨tables, maps', grows, fun _ => spares⟩
  | setDirty vpage dirty =>
    refine .bind ((hm.wp_setFlag Maps.isFlag_pteD vpage.toNat_lt dirty).runs.mono ?_)
    rintro _ r' ⟨maps', grows, spares⟩
    exact .pure ⟨tables, maps', grows, spares⟩
  | setAccessed vpage accessed =>
    refine .bind ((hm.wp_setFlag Maps.isFlag_pteA vpage.toNat_lt accessed).runs.mono ?_)
    rintro _ r' ⟨maps', grows, spares⟩
    exact .pure ⟨tables, maps', grows, spares⟩

/-- The directory has the kernel's page tables in the kernel half, and those it has created. -/
@[grind cases] structure Upholds (start : Ram) (kernelTables : Nat → Option Nat) (d : PageDir)
    (tables : Nat → Option Nat) : Prop where
  maps : Maps d.ram d.pd tables d.frames
  own : d.pd ≠ d.ram.initPageDir
  kernel : ∀ i, pdNo physBase ≤ i → tables i = kernelTables i
  mine : ∃ new, d.ram.obtained = new ++ start.obtained ∧
    ∀ p, p ∈ new ↔ p = d.pd ∨ ∃ i < pdNo physBase, tables i = some p

variable {start : Ram} {kernelTables : Nat → Option Nat} {d d' : PageDir}

theorem Grows.mine (grows : Grows r r' pd tables tables')
    (mine : ∃ new, r.obtained = new ++ start.obtained ∧
      ∀ p, p ∈ new ↔ p = pd ∨ ∃ i < pdNo physBase, tables i = some p) :
    ∃ new, r'.obtained = new ++ start.obtained ∧
      ∀ p, p ∈ new ↔ p = pd ∨ ∃ i < pdNo physBase, tables' i = some p := by
  obtain ⟨old, got, known⟩ := mine
  obtain ⟨new, got', _, _, known'⟩ := grows.obtained
  refine ⟨new ++ old, by rw [got', got, List.append_assoc], fun p => ?_⟩
  rw [List.mem_append, known, known']
  constructor
  · grind
  · rintro (rfl | ⟨i, lower, is⟩)
    · exact .inr (.inl rfl)
    · cases was : tables i with
      | none => exact .inl ⟨i, was, is⟩
      | some t => grind

theorem Upholds.step {call : PageCall} (upholds : Upholds start kernelTables d tables)
    (ran : d.step call = some d') : ∃ tables', Upholds start kernelTables d' tables' ∧
      (isUserVaddr call.vaddr → SparesKernel d.ram d'.ram tables) := by
  unfold PageDir.step at ran
  split at ran
  · rename_i frames ram run
    cases ran
    obtain ⟨tables', hm, grows, spares⟩ :=
      (upholds.maps.runs_code upholds.own call).result run
    refine ⟨tables', ⟨hm, ?_, ?_, grows.mine upholds.mine⟩, spares⟩
    · show d.pd ≠ ram.initPageDir
      rw [grows.initPageDir]
      exact upholds.own
    · intro i upper
      rw [grows.kernel i upper]
      exact upholds.kernel i upper
  · cases ran

theorem Upholds.run {history : List PageCall} (upholds : Upholds start kernelTables d tables)
    (run : Run PageDir.step Free d history d') :
    ∃ tables', Upholds start kernelTables d' tables' := by
  apply run.invariant (I := fun d => ∃ tables, Upholds start kernelTables d tables)
    ⟨tables, upholds⟩
  rintro a call b ⟨tables, upholds⟩ _ ran
  obtain ⟨tables', upholds', _⟩ := upholds.step ran
  exact ⟨tables', upholds'⟩

/-- The frames that the directory maps were obtained by its owner, and each is mapped once. -/
@[grind cases] structure OwnFrames (kernel : Ram) (mine : List Nat) (d : PageDir) : Prop where
  used : ∀ u kpage, d.frames u = some kpage → kpage ∈ d.ram.outstanding
  apart : ∀ u kpage, d.frames u = some kpage → kpage ∉ mine ∧ ¬ KernelTable kernel kpage
  once : ∀ u v kpage, d.frames u = some kpage → d.frames v = some kpage → u = v

/-- What `pagedir_get_page` finds. -/
def PageDir.lookup (d : PageDir) (uaddr : Nat) : Option Nat :=
  match pagedirGetPage d.pd uaddr d.ram with
  | .ok (found, _) => found
  | .error _ => none

/-- `d`, reached from a directory that was created in `start`, is the map `d.frames`. -/
structure PageDirRefines (kernel start : Ram) (d : PageDir) : Prop where
  getPage : ∀ uaddr, isUserVaddr uaddr →
    pagedirGetPage d.pd uaddr d.ram = .ok ((d.frames (pgNo uaddr)).map (· + pgOfs uaddr), d.ram)
  kernelHalf : ∀ i, pdNo physBase ≤ i → i < 1024 →
    d.ram.word (d.pd + 4 * i) = kernel.word (kernel.initPageDir + 4 * i)
  others : ∀ call d', d.step call = some d' → ∀ uaddr, isUserVaddr uaddr →
    pgNo uaddr ≠ pgNo call.vaddr → d'.lookup uaddr = d.lookup uaddr
  kernelTables : ∀ call d', d.step call = some d' → isUserVaddr call.vaddr →
    ∀ t, KernelTable kernel t → ∀ j < 1024, d'.ram.word (t + 4 * j) = d.ram.word (t + 4 * j)
  failedSet : ∀ upage kpage writable ram,
    pagedirSetPage d.pd upage kpage writable d.ram = .ok (false, ram) →
    ∀ uaddr, isUserVaddr uaddr → { d with ram }.lookup uaddr = d.lookup uaddr
  destroy : ∀ mine, d.ram.obtained = mine ++ start.obtained → OwnFrames kernel mine d →
    ∃ after pages, pagedirDestroy (some d.pd) d.ram = .ok ((), after) ∧
      after.released = pages ++ d.ram.released ∧ pages.Nodup ∧
      (∀ p, p ∈ pages ↔ (∃ u, d.frames u = some p) ∨ p ∈ mine) ∧
      ∀ t, KernelTable kernel t → t ∉ pages

namespace Upholds

theorem lookup_eq (hm : Maps d.ram d.pd tables d.frames) {uaddr : Nat} (user : isUserVaddr uaddr) :
    pagedirGetPage d.pd uaddr d.ram = .ok
      ((d.frames (pgNo uaddr)).map (· + pgOfs uaddr), d.ram) := by
  obtain ⟨found, ram, run, rfl, rfl⟩ := (hm.wp_pagedirGetPage user
    (Q := fun found ram => found = (d.frames (pgNo uaddr)).map (· + pgOfs uaddr) ∧ ram = d.ram)).mpr
    ⟨rfl, rfl⟩
  exact run

theorem lookup_frames (hm : Maps d.ram d.pd tables d.frames) {uaddr : Nat}
    (user : isUserVaddr uaddr) : d.lookup uaddr = (d.frames (pgNo uaddr)).map
    (· + pgOfs uaddr) := by
  unfold PageDir.lookup
  rw [lookup_eq hm user]

/-- A call changes what its own page is mapped to, at most. -/
theorem runs_code_others (call : PageCall) : Runs False (call.code pd frames)
    (fun frames' _ => ∀ u, u ≠ pgNo call.vaddr → frames' u = frames u) r := by
  cases call with
  | setPage upage kpage hw =>
    refine .bind (.any id fun done r' => .pure fun u ne => ?_)
    cases done with
    | true => exact update_of_ne ne _ _
    | false => rfl
  | clearPage upage =>
    exact .bind (.any id fun _ r' => .pure fun u ne => update_of_ne ne _ _)
  | getPage uaddr => exact .bind (.any id fun _ r' => .pure fun u _ => rfl)
  | setDirty vpage dirty => exact .bind (.any id fun _ r' => .pure fun u _ => rfl)
  | setAccessed vpage accessed => exact .bind (.any id fun _ r' => .pure fun u _ => rfl)

theorem frames_of_ne {call : PageCall} (ran : d.step call = some d') {u : Nat}
    (ne : u ≠ pgNo call.vaddr) : d'.frames u = d.frames u := by
  unfold PageDir.step at ran
  split at ran
  · rename_i frames ram run
    cases ran
    exact (runs_code_others call).result run u ne
  · cases ran

theorem destroy {kernel : Ram} (dir : KernelDir kernel kernelTables)
    (upholds : Upholds start kernelTables d tables) {mine : List Nat}
    (got : d.ram.obtained = mine ++ start.obtained) (owner : OwnFrames kernel mine d) :
    ∃ after pages, pagedirDestroy (some d.pd) d.ram = .ok ((), after) ∧
      after.released = pages ++ d.ram.released ∧ pages.Nodup ∧
      (∀ p, p ∈ pages ↔ (∃ u, d.frames u = some p) ∨ p ∈ mine) ∧
      ∀ t, KernelTable kernel t → t ∉ pages := by
  have own : ∀ p, p ∈ mine ↔ p = d.pd ∨ ∃ i < pdNo physBase, tables i = some p := by
    obtain ⟨new, got', known⟩ := upholds.mine
    rw [got] at got'
    rwa [List.append_cancel_right got']
  have upperTable : ∀ t, KernelTable kernel t → ∃ i, pdNo physBase ≤ i ∧ kernelTables i =
    some t := by
    intro t table
    obtain ⟨i, is⟩ := dir.kernelTable_iff.mp table
    exact ⟨i, dir.upper is, is⟩
  have owned : Owned d.ram d.pd tables d.frames := by
    refine ⟨owner.used, ?_, owner.once⟩
    intro u kpage mapped
    obtain ⟨notMine, notKernel⟩ := owner.apart u kpage mapped
    rw [own, not_or] at notMine
    refine ⟨notMine.1, fun i is => ?_⟩
    by_cases lower : i < pdNo physBase
    · exact notMine.2 ⟨i, lower, is⟩
    · rw [upholds.kernel i (by omega)] at is
      exact notKernel (dir.kernelTable_iff.mpr ⟨i, is⟩)
  obtain ⟨_, after, run, freed⟩ := upholds.maps.wp_pagedirDestroy upholds.own owned
  have members : ∀ p, p ∈ (pagesIn d.pd tables d.frames).reverse ↔
      (∃ u, d.frames u = some p) ∨ p ∈ mine := by
    intro p
    rw [List.mem_reverse, mem_pagesIn upholds.maps, own, or_comm (a := p = d.pd)]
  refine ⟨after, _, run, freed.released, ?_, members, ?_⟩
  · exact List.nodup_reverse.mpr (pagesIn_nodup upholds.maps owned)
  · grind

theorem refines {kernel : Ram} (dir : KernelDir kernel kernelTables)
    (upholds : Upholds start kernelTables d tables) : PageDirRefines kernel start d where
  getPage _ user := lookup_eq upholds.maps user
  kernelHalf i upper hi := by
    rw [upholds.maps.pde i hi, dir.maps.pde i hi, upholds.kernel i upper]
  others call d' ran uaddr user ne := by
    obtain ⟨tables', upholds', _⟩ := upholds.step ran
    rw [lookup_frames upholds'.maps user, lookup_frames upholds.maps user,
      frames_of_ne ran ne]
  kernelTables call d' ran user t table j hi := by
    obtain ⟨i, is⟩ := dir.kernelTable_iff.mp table
    obtain ⟨_, _, spares⟩ := upholds.step ran
    have upper := dir.upper is
    rw [← upholds.kernel i upper] at is
    exact spares user i t upper is j hi
  failedSet upage kpage hw ram failed uaddr user := by
    obtain ⟨tables', hm, _, _⟩ := (upholds.maps.runs_pagedirSetPage upholds.own).result failed
    have maps' : Maps { d with ram }.ram { d with ram }.pd tables' { d with ram }.frames := hm
    rw [lookup_frames maps' user, lookup_frames upholds.maps user]
  destroy mine got owner := upholds.destroy dir got owner

end Upholds

/-- Where every frame is mapped at one page only, a directory is the map from pages to frames that
the calls on it describe, and `pagedir_destroy` frees its frames, its page tables and itself. -/
theorem page_directory_refines {text : Nat → Bool} {boot kernel start created : Ram} {pd : Nat}
    {history : List PageCall} {d : PageDir} (small : boot.Small)
    (init : pagingInit text boot = .ok ((), kernel)) (elapses : Elapses kernel start)
    (create : pagedirCreate start = .ok (some pd, created))
    (run : Run PageDir.step Free { ram := created, pd, frames := fun _ => none } history d) :
    PageDirRefines kernel start d := by
  obtain ⟨tables, dir⟩ := (runs_pagingInit small text).result init
  have hm := ((dir.elapse elapses).wp_pagedirCreate.result create).2 pd rfl
  have first : Upholds start tables { ram := created, pd, frames := fun _ => none } tables := by
    refine ⟨hm.maps, hm.own, fun _ _ => rfl, [pd], hm.obtained, fun p => ?_⟩
    rw [List.mem_singleton]
    constructor
    · exact .inl
    · grind
  obtain ⟨tables', upholds⟩ := first.run run
  exact upholds.refines dir

theorem KernelDir.elapses_self (dir : KernelDir r tables) : Elapses r r := by
  refine ⟨rfl, rfl, fun _ _ => rfl, dir.maps.used, fun t table => ?_⟩
  obtain ⟨i, is⟩ := dir.kernelTable_iff.mp table
  exact (dir.maps.table i t is).2.2.1

/-- A machine with eight pages of RAM, where the second attempt to get a page table succeeds. -/
def eightPages : Ram where
  word := fun _ => 7
  initRamPages := 8
  initPageDir := 0
  outstanding := [0xc0006000]
  obtained := []
  released := []
  answers := [some 0xc0001000, some 0xc0002000, some 0xc0003000, none, some 0xc0004000]

/-- Boots the machine, creates a directory and runs the calls on it. -/
def runOn (calls : List PageCall) : Option (Ram × Ram × Nat × PageDir) :=
  (pagingInit (fun _ => false) eightPages).toOption.bind fun (_, kernel) =>
    (pagedirCreate kernel).toOption.bind fun (found, created) => found.bind fun pd =>
      (runs PageDir.step Free ⟨created, pd, fun _ => none⟩ calls).map fun d =>
        (kernel, created, pd, d)

theorem runOn_some {calls : List PageCall} {kernel created : Ram} {pd : Nat} {d : PageDir}
    (h : runOn calls = some (kernel, created, pd, d)) :
    pagingInit (fun _ => false) eightPages = .ok ((), kernel) ∧ Elapses kernel kernel ∧
      pagedirCreate kernel = .ok (some pd, created) ∧
      Run PageDir.step Free ⟨created, pd, fun _ => none⟩ calls.reverse d := by
  obtain ⟨⟨_, kernel⟩, init, h⟩ := bind_eq_some_iff.mp h
  obtain ⟨⟨found, created⟩, create, h⟩ := bind_eq_some_iff.mp h
  obtain ⟨pd, rfl, h⟩ := bind_eq_some_iff.mp h
  obtain ⟨d, run, h⟩ := map_eq_some_iff.mp h
  cases h
  have booted := ok_of_toOption init
  obtain ⟨tables, dir⟩ := (runs_pagingInit (by decide) _).result booted
  exact ⟨booted, dir.elapses_self, ok_of_toOption create, runs_run run⟩

theorem page_directory_refines_eightPages : ∃ kernel created pd d,
    runOn [.setPage 0x08048000 0xc0006000 true, .setPage 0x08048000 0xc0006000 true,
      .setDirty 0x08048000 true, .getPage 0x08048123] = some (kernel, created, pd, d) ∧
    d.lookup 0x08048123 = some 0xc0006123 ∧ PageDirRefines kernel kernel d := by
  have found : (runOn [.setPage 0x08048000 0xc0006000 true, .setPage 0x08048000 0xc0006000 true,
      .setDirty 0x08048000 true, .getPage 0x08048123]).map
      (fun (_, _, _, d) => d.lookup 0x08048123) = some (some 0xc0006123) := by decide +kernel
  obtain ⟨⟨kernel, created, pd, d⟩, run, looked⟩ := map_eq_some_iff.mp found
  obtain ⟨init, elapses, create, hst⟩ := runOn_some run
  exact ⟨kernel, created, pd, d, run, looked,
    page_directory_refines (by decide) init elapses create hst⟩

/-- A frame that is mapped at two pages is freed twice. -/
theorem page_directory_frees_twice : ∃ kernel created pd d,
    runOn [.setPage 0x08048000 0xc0006000 true, .setPage 0x08048000 0xc0006000 true,
      .setPage 0x08049000 0xc0006000 true] = some (kernel, created, pd, d) ∧
    d.lookup 0x08048000 = some 0xc0006000 ∧ d.lookup 0x08049000 = some 0xc0006000 ∧
    pagedirDestroy (some d.pd) d.ram =
      .error "bitmap_all (pool->used_map, page_idx, page_cnt)" := by
  have found : (runOn [.setPage 0x08048000 0xc0006000 true, .setPage 0x08048000 0xc0006000 true,
      .setPage 0x08049000 0xc0006000 true]).map (fun (_, _, _, d) => (d.lookup 0x08048000,
        d.lookup 0x08049000, (pagedirDestroy (some d.pd) d.ram).map fun _ => ())) =
      some (some 0xc0006000, some 0xc0006000,
        .error "bitmap_all (pool->used_map, page_idx, page_cnt)") := by decide +kernel
  obtain ⟨⟨kernel, created, pd, d⟩, run, looked⟩ := map_eq_some_iff.mp found
  simp only [Prod.mk.injEq] at looked
  obtain ⟨first, second, stops⟩ := looked
  refine ⟨kernel, created, pd, d, run, first, second, ?_⟩
  cases res : pagedirDestroy (some d.pd) d.ram with
  | ok value =>
    rw [res] at stops
    cases stops
  | error message =>
    rw [res] at stops
    cases stops
    rfl

end Pintos.Userprog
