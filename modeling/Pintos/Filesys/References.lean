import Pintos.Filesys.Directory
import Pintos.Filesys.InodeIo
import Mathlib.Data.List.Count

/-!
# References to inodes

Who has an inode open: the open files, and the pointers the kernel holds in local
variables. `open_cnt` is their number, and `deny_write_cnt` the number of open files that
deny writes.
-/

namespace Pintos.Filesys

open LittleEndian Prog Function List

namespace FS

@[simps] def withInode (fs : FS) (i : InodePtr) (f : Inode → Inode) : FS :=
  { fs with inode := update fs.inode i (f (fs.inode i)) }

@[simps] def withFile (fs : FS) (p : FilePtr) (f : File → File) : FS :=
  { fs with file := update fs.file p (f (fs.file p)) }

/-- What is in memory of inodes and files. -/
def tables (fs : FS) :
    List InodePtr × Nat × (InodePtr → Inode) × (FilePtr → File) × Nat :=
  (fs.openInodes, fs.inodes, fs.inode, fs.file, fs.files)

/-- How many of these files and pointers refer to an inode. -/
def refs (fs : FS) (files : List FilePtr) (held : List InodePtr) (i : InodePtr) : Nat :=
  files.countP (fun f => (fs.file f).inode == i) + held.count i

/-- How many of these files deny writes to an inode. -/
def denials (fs : FS) (files : List FilePtr) (i : InodePtr) : Nat :=
  files.countP fun f => (fs.file f).inode == i && (fs.file f).denyWrite

end FS

/-- `files` are the open files and `held` the other references to inodes. -/
@[grind cases] structure Counted (fs : FS) (files : List FilePtr) (held : List InodePtr) :
    Prop where
  nodup : fs.openInodes.Nodup
  apart : ∀ i ∈ fs.openInodes, ∀ j ∈ fs.openInodes, (fs.inode i).sector = (fs.inode j).sector → i =
    j
  known : ∀ i ∈ fs.openInodes, i < fs.inodes
  once : files.Nodup
  made : ∀ f ∈ files, f < fs.files
  opened : ∀ i, i ∈ fs.openInodes ↔ 0 < fs.refs files held i
  count : ∀ i ∈ fs.openInodes, (fs.inode i).openCnt = fs.refs files held i
  deny : ∀ i ∈ fs.openInodes, (fs.inode i).denyWriteCnt = fs.denials files i

section
variable {fs fs' : FS} {files files' : List FilePtr} {held held' : List InodePtr} {i : InodePtr}
  {f : FilePtr}

theorem wp_modifyInode {g : Inode → Inode} :
    Wp (modifyInode i g) (fun _ fs' => fs' = fs.withInode i g) fs :=
  .bind (.get (.set rfl))

theorem wp_modifyFile {g : File → File} :
    Wp (modifyFile f g) (fun _ fs' => fs' = fs.withFile f g) fs :=
  .bind (.get (.set rfl))

namespace FS

@[simp] theorem withInode_refs (g : Inode → Inode) : (fs.withInode i g).refs = fs.refs := rfl

@[simp] theorem withInode_denials (g : Inode → Inode) : (fs.withInode i g).denials = fs.denials :=
  rfl

theorem withInode_keep {β : Type} {part : Inode → β} {g : Inode → Inode}
    (keeps : ∀ n, part (g n) = part n) (j : InodePtr) :
    part ((fs.withInode i g).inode j) = part (fs.inode j) := by
  by_cases eq : j = i
  · subst eq
    simp [keeps]
  · simp [eq]

theorem withFile_keep {β : Type} {part : File → β} {g : File → File}
    (keeps : ∀ n, part (g n) = part n) (p : FilePtr) :
    part ((fs.withFile f g).file p) = part (fs.file p) := by
  by_cases eq : p = f
  · subst eq
    simp [keeps]
  · simp [eq]

theorem denials_le_refs : fs.denials files i ≤ fs.refs files held i := by
  refine Nat.le_trans (countP_mono_left fun f _ both => ?_) (Nat.le_add_right _ _)
  exact (Bool.and_eq_true_iff.mp both).1

theorem refs_file (mem : f ∈ files) : 0 < fs.refs files held (fs.file f).inode := by
  refine Nat.add_pos_left (countP_pos_iff.mpr ⟨f, mem, ?_⟩) _
  simp

theorem refs_held (mem : i ∈ held) : 0 < fs.refs files held i :=
  Nat.add_pos_right _ (count_pos_iff.mpr mem)

theorem refs_cons (j : InodePtr) :
    fs.refs files (i :: held) j = fs.refs files held j + if i = j then 1 else 0 := by
  simp only [refs, count_cons, beq_iff_eq]
  omega

theorem refs_erase (mem : i ∈ held) (j : InodePtr) :
    fs.refs files (held.erase i) j + (if i = j then 1 else 0) = fs.refs files held j := by
  have pos := count_pos_iff.mpr mem
  simp only [refs, count_erase, beq_iff_eq]
  by_cases eq : i = j
  · subst eq
    simp only [if_true]
    omega
  · simp [eq]

end FS

namespace Counted

section
variable (hc : Counted fs files held)
include hc

theorem of_tables (eq : fs'.tables = fs.tables) : Counted fs' files held := by
  simp only [FS.tables, Prod.mk.injEq] at eq
  obtain ⟨openInodes, inodes, inode, file, made⟩ := eq
  constructor
  case nodup => rw [openInodes]; exact hc.nodup
  case apart => rw [openInodes, inode]; exact hc.apart
  case known => rw [openInodes, inodes]; exact hc.known
  case once => exact hc.once
  case made => rw [made]; exact hc.made
  case opened => unfold FS.refs; rw [openInodes, file]; exact hc.opened
  case count => unfold FS.refs; rw [openInodes, inode, file]; exact hc.count
  case deny => unfold FS.denials; rw [openInodes, inode, file]; exact hc.deny

theorem deny_le_open (ho : i ∈ fs.openInodes) :
    0 ≤ (fs.inode i).denyWriteCnt ∧ (fs.inode i).denyWriteCnt ≤ (fs.inode i).openCnt := by
  rw [hc.deny i ho, hc.count i ho]
  exact ⟨Int.natCast_nonneg _, Int.ofNat_le.mpr FS.denials_le_refs⟩

theorem file_opened (mem : f ∈ files) : (fs.file f).inode ∈ fs.openInodes :=
  (hc.opened _).mpr (FS.refs_file mem)

theorem held_opened (mem : i ∈ held) : i ∈ fs.openInodes :=
  (hc.opened _).mpr (FS.refs_held mem)

/-- The references to one open inode change, and it stays open. -/
theorem adjust (ho : i ∈ fs.openInodes)
    (openInodes : fs'.openInodes = fs.openInodes) (inodes : fs'.inodes = fs.inodes)
    (sector : ∀ j, (fs'.inode j).sector = (fs.inode j).sector) (once : files'.Nodup)
    (hm : ∀ f ∈ files', f < fs'.files)
    (others : ∀ j, j ≠ i → fs'.inode j = fs.inode j ∧
      fs'.refs files' held' j = fs.refs files held j ∧ fs'.denials files' j = fs.denials files j)
    (used : 0 < fs'.refs files' held' i)
    (count : (fs'.inode i).openCnt = fs'.refs files' held' i)
    (deny : (fs'.inode i).denyWriteCnt = fs'.denials files' i) : Counted fs' files' held' := by
  constructor <;> grind [update_apply]

theorem reopen (ho : i ∈ fs.openInodes) :
    Counted (fs.withInode i fun n => { n with openCnt := n.openCnt + 1 }) files (i :: held) := by
  refine hc.adjust ho rfl rfl (FS.withInode_keep fun _ => rfl) hc.once hc.made
    (fun j ne => ?_) ?_ ?_ ?_
  · simp [ne, FS.refs_cons, Ne.symm ne]
  · simp [FS.refs_cons]
  · simp [FS.refs_cons, hc.count i ho]
  · simpa using hc.deny i ho

theorem remove (ho : i ∈ fs.openInodes) :
    Counted (fs.withInode i fun n => { n with removed := true }) files held := by
  refine hc.adjust ho rfl rfl (FS.withInode_keep fun _ => rfl) hc.once hc.made
    (fun j ne => ?_) ((hc.opened i).mp ho) ?_ ?_
  · simp [ne]
  · simpa using hc.count i ho
  · simpa using hc.deny i ho

/-- One of several pointers to an inode is given up. -/
theorem drop (mem : i ∈ held) (more : 0 < fs.refs files (held.erase i) i) :
    Counted (fs.withInode i fun n => { n with openCnt := n.openCnt - 1 }) files (held.erase i) := by
  have ho := hc.held_opened mem
  have count := hc.count i ho
  rw [← FS.refs_erase mem i, if_pos rfl] at count
  refine hc.adjust ho rfl rfl (FS.withInode_keep fun _ => rfl) hc.once hc.made
    (fun j ne => ?_) (by simpa using more) ?_ ?_
  · have refs : fs.refs files (held.erase i) j + _ = fs.refs files held j := FS.refs_erase mem j
    rw [if_neg (Ne.symm ne), Nat.add_zero] at refs
    simp [ne, refs]
  · simp [count]
  · simpa using hc.deny i ho

/-- The last pointer to an inode is given up. -/
theorem dropLast (mem : i ∈ held) (last : fs.refs files (held.erase i) i = 0) :
    Counted { fs.withInode i (fun n => { n with openCnt := n.openCnt - 1 }) with
      openInodes := fs.openInodes.erase i } files (held.erase i) := by
  have sector : ∀ j,
    ((fs.withInode i fun n => { n with openCnt := n.openCnt - 1 }).inode j).sector =
      (fs.inode j).sector := FS.withInode_keep fun _ => rfl
  have others : ∀ j, j ≠ i →
      (fs.withInode i fun n => { n with openCnt := n.openCnt - 1 }).inode j = fs.inode j :=
    fun j ne => update_of_ne ne ..
  have left : ∀ {j}, j ∈ fs.openInodes.erase i → j ≠ i ∧ j ∈ fs.openInodes :=
    fun mem => (hc.nodup.mem_erase_iff).mp mem
  have refs : ∀ j, j ≠ i → fs.refs files (held.erase i) j = fs.refs files held j := by
    intro j ne
    have refs : fs.refs files (held.erase i) j + _ = fs.refs files held j := FS.refs_erase mem j
    rwa [if_neg (Ne.symm ne)] at refs
  constructor
  case nodup => exact hc.nodup.erase i
  case apart => grind
  case known => exact fun j hj => hc.known j (left hj).2
  case once => exact hc.once
  case made => exact hc.made
  case opened =>
    intro j
    show j ∈ fs.openInodes.erase i ↔ 0 < fs.refs files (held.erase i) j
    rw [hc.nodup.mem_erase_iff, hc.opened]
    by_cases eq : j = i
    · subst eq
      simp [last]
    · simp [eq, refs j eq]
  case count =>
    intro j hj
    obtain ⟨ne, mem⟩ := left hj
    have count := hc.count j mem
    rw [← others j ne, ← refs j ne] at count
    exact count
  case deny =>
    intro j hj
    obtain ⟨ne, mem⟩ := left hj
    have deny := hc.deny j mem
    rw [← others j ne] at deny
    exact deny

/-- An inode that was not open is read into memory. -/
theorem create {n : Inode} (one : n.openCnt = 1) (hw : n.denyWriteCnt = 0)
    (fresh : ∀ j ∈ fs.openInodes, (fs.inode j).sector ≠ n.sector) :
    Counted { fs with
      inode := update fs.inode fs.inodes n
      inodes := fs.inodes + 1
      openInodes := fs.inodes :: fs.openInodes } files (fs.inodes :: held) := by
  have new : fs.inodes ∉ fs.openInodes := fun mem => Nat.lt_irrefl _ (hc.known _ mem)
  have unused : fs.refs files held fs.inodes = 0 := by
    have := mt (hc.opened fs.inodes).mpr new
    omega
  have older : ∀ {j}, j ∈ fs.openInodes → j ≠ fs.inodes := fun mem eq => new (eq ▸ mem)
  have others : ∀ {j}, j ∈ fs.openInodes → update fs.inode fs.inodes n j = fs.inode j :=
    fun mem => update_of_ne (older mem) ..
  have self : update fs.inode fs.inodes n fs.inodes = n := update_self ..
  have refs : ∀ j, fs.refs files (fs.inodes :: held) j =
      fs.refs files held j + if fs.inodes = j then 1 else 0 := FS.refs_cons
  constructor
  case nodup => exact nodup_cons.mpr ⟨new, hc.nodup⟩
  case apart => grind
  case known => grind
  case once => exact hc.once
  case made => exact hc.made
  case opened =>
    intro j
    show j ∈ fs.inodes :: fs.openInodes ↔ 0 < fs.refs files (fs.inodes :: held) j
    rw [mem_cons, refs, hc.opened]
    by_cases eq : fs.inodes = j
    · simp [eq]
    · simp [eq, Ne.symm eq]
  case count =>
    intro j hj
    show (update fs.inode fs.inodes n j).openCnt = fs.refs files (fs.inodes :: held) j
    rw [refs]
    rcases mem_cons.mp hj with rfl | hj
    · simp [one, unused]
    · rw [others hj, hc.count j hj, if_neg (Ne.symm (older hj)), Nat.add_zero]
  case deny =>
    intro j hj
    show (update fs.inode fs.inodes n j).denyWriteCnt = fs.denials files j
    rcases mem_cons.mp hj with rfl | hj
    · have none : fs.denials files fs.inodes ≤ 0 := unused ▸ FS.denials_le_refs
      simp [hw, Nat.le_zero.mp none]
    · rw [others hj, hc.deny j hj]

/-- A pointer to an inode becomes an open file. -/
theorem newFile (mem : i ∈ held) :
    Counted { fs with file := update fs.file fs.files { inode := i }, files := fs.files + 1 }
      (fs.files :: files) (held.erase i) := by
  have new : fs.files ∉ files := fun mem => Nat.lt_irrefl _ (hc.made _ mem)
  have others : ∀ f ∈ files, update fs.file fs.files { inode := i } f = fs.file f :=
    fun f mem => update_of_ne (fun eq : f = fs.files => new (eq ▸ mem)) ..
  have refs : ∀ j, (files.countP fun f =>
      (update fs.file fs.files { inode := i } f).inode == j) =
        files.countP fun f => (fs.file f).inode == j :=
    fun j => countP_congr fun f mem => by rw [others f mem]
  have denials : ∀ j, (files.countP fun f =>
      (update fs.file fs.files { inode := i } f).inode == j &&
        (update fs.file fs.files { inode := i } f).denyWrite) = fs.denials files j :=
    fun j => countP_congr fun f mem => by rw [others f mem]
  have count : ∀ j, FS.refs { fs with
      file := update fs.file fs.files { inode := i }, files := fs.files + 1 }
      (fs.files :: files) (held.erase i) j = fs.refs files held j := by
    intro j
    rw [← FS.refs_erase mem j]
    simp only [FS.refs, countP_cons, update_self, refs, beq_iff_eq]
    omega
  have deny : ∀ j, FS.denials { fs with
      file := update fs.file fs.files { inode := i }, files := fs.files + 1 }
      (fs.files :: files) j = fs.denials files j := by
    intro j
    rw [← denials j]
    simp [FS.denials]
  constructor
  case nodup => exact hc.nodup
  case apart => exact hc.apart
  case known => exact hc.known
  case once => exact nodup_cons.mpr ⟨new, hc.once⟩
  case made =>
    intro f hf
    show f < fs.files + 1
    rcases mem_cons.mp hf with rfl | hf
    · exact Nat.lt_succ_self _
    · exact Nat.lt_succ_of_lt (hc.made f hf)
  case opened => intro j; rw [count]; exact hc.opened j
  case count => intro j hj; rw [count]; exact hc.count j hj
  case deny => intro j hj; rw [deny]; exact hc.deny j hj

/-- A file that denies no writes becomes a pointer to its inode. -/
theorem freeFile (mem : f ∈ files) (allows : (fs.file f).denyWrite = false) :
    Counted fs (files.erase f) ((fs.file f).inode :: held) := by
  have split := perm_cons_erase mem
  have refs : ∀ j, fs.refs (files.erase f) ((fs.file f).inode :: held) j =
    fs.refs files held j := by
    intro j
    rw [FS.refs_cons]
    simp only [FS.refs, split.countP_eq, countP_cons, beq_iff_eq]
    omega
  have denials : ∀ j, fs.denials (files.erase f) j = fs.denials files j := by
    intro j
    simp [FS.denials, split.countP_eq, allows]
  constructor
  case nodup => exact hc.nodup
  case apart => exact hc.apart
  case known => exact hc.known
  case once => exact hc.once.erase f
  case made => exact fun p hp => hc.made p (mem_of_mem_erase hp)
  case opened => intro j; rw [refs]; exact hc.opened j
  case count => intro j hj; rw [refs]; exact hc.count j hj
  case deny => intro j hj; rw [denials]; exact hc.deny j hj

theorem withFile {g : File → File} (inode : ∀ n, (g n).inode = n.inode)
    (deny : ∀ n, (g n).denyWrite = n.denyWrite) : Counted (fs.withFile f g) files held := by
  have refs : ∀ j, (fs.withFile f g).refs files held j = fs.refs files held j := by
    intro j
    simp only [FS.refs, FS.withFile_keep inode]
  have denials : ∀ j, (fs.withFile f g).denials files j = fs.denials files j := by
    intro j
    simp only [FS.denials, FS.withFile_keep inode, FS.withFile_keep deny]
  constructor
  case nodup => exact hc.nodup
  case apart => exact hc.apart
  case known => exact hc.known
  case once => exact hc.once
  case made => exact hc.made
  case opened => intro j; rw [refs]; exact hc.opened j
  case count => intro j hj; rw [refs]; exact hc.count j hj
  case deny => intro j hj; rw [denials]; exact hc.deny j hj

/-- An open file denies or allows writes, and the counter of its inode follows. -/
theorem setDeny (mem : f ∈ files) (value : Bool) {d : Int}
    (changes : d = (fs.inode (fs.file f).inode).denyWriteCnt +
      ((if value then 1 else 0) - if (fs.file f).denyWrite then 1 else 0)) :
    Counted ((fs.withFile f fun p => { p with denyWrite := value }).withInode (fs.file f).inode
      fun n => { n with denyWriteCnt := d }) files held := by
  have ho := hc.file_opened mem
  have split := perm_cons_erase mem
  have inode : ∀ p, ((fs.withFile f fun p => { p with denyWrite := value }).file p).inode =
      (fs.file p).inode := FS.withFile_keep fun _ => rfl
  have refs : ∀ j, (fs.withFile f fun p => { p with denyWrite := value }).refs files held j =
      fs.refs files held j := by
    intro j
    simp only [FS.refs, inode]
  -- the other files are as they were
  have rest : ∀ j, (fs.withFile f fun p => { p with denyWrite := value }).denials
      (files.erase f) j = fs.denials (files.erase f) j := by
    intro j
    refine countP_congr fun p hp => ?_
    have ne : p ≠ f := ((hc.once.mem_erase_iff).mp hp).1
    simp [ne]
  have denials : ∀ (k : FS) j, k.denials files j = k.denials (files.erase f) j +
      if (k.file f).inode = j ∧ (k.file f).denyWrite = true then 1 else 0 := by
    intro k j
    simp only [FS.denials, split.countP_eq, countP_cons, Bool.and_eq_true, beq_iff_eq]
  refine hc.adjust ho rfl rfl (FS.withInode_keep fun _ => rfl) hc.once hc.made
    (fun j ne => ⟨by simp [ne], refs j, ?_⟩) ?_ ?_ ?_
  · show (fs.withFile f fun p => { p with denyWrite := value }).denials files j = fs.denials files j
    rw [denials, denials, rest, if_neg (by simp [Ne.symm ne]), if_neg (by simp [Ne.symm ne])]
  · show 0 < (fs.withFile f fun p => { p with denyWrite := value }).refs files held
      (fs.file f).inode
    rw [refs]
    exact FS.refs_file mem
  · show _ = (((fs.withFile f fun p => { p with denyWrite := value }).refs files held
      (fs.file f).inode : Nat) : Int)
    rw [refs]
    simpa using hc.count _ ho
  · show _ = (((fs.withFile f fun p => { p with denyWrite := value }).denials files
      (fs.file f).inode : Nat) : Int)
    have deny := hc.deny _ ho
    rw [denials] at deny ⊢
    rw [rest]
    simp only [FS.withInode_inode, update_self, FS.withFile_file, changes, deny]
    cases value <;> cases (fs.file f).denyWrite <;> simp

end

end Counted

end

end Pintos.Filesys
