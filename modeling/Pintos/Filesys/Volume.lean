import Pintos.Filesys.Allocation
import Pintos.Filesys.Listing

/-!
# The volume

The inodes in use are the two fixed ones, those the directory lists and those that are open.
The functions of `filesys.c` keep them sound, whether or not memory can be allocated.
-/

namespace Pintos.Filesys

open LittleEndian Prog List

def Special (s : Nat) : Prop := s = freeMapSector ∨ s = rootDirSector

def FS.live (fs : FS) : Set Nat :=
  {s | Special s ∨ fs.Listed s ∨ ∃ i ∈ fs.openInodes, (fs.inode i).sector = s}

@[grind cases] structure Volume (tight : Prop) (fs : FS) (files : List FilePtr)
    (held : List InodePtr) : Prop where
  sound : Sound tight fs fs.live files held
  length : (fs.data rootDirSector).length = entrySize * rootSlots
  ends : fs.Terminated
  ordinary : ∀ s, fs.Listed s → ¬ Special s
  once : ∀ slot slot', fs.Used slot → fs.Used slot' →
    Entry.inodeSector (fs.entry slot) = Entry.inodeSector (fs.entry slot') → slot = slot'
  removed : ∀ i ∈ fs.openInodes, (fs.inode i).removed = true →
    ¬ Special (fs.inode i).sector ∧ ¬ fs.Listed (fs.inode i).sector
  clients : ∀ f ∈ files, fs.freeMapFile ≠ some f → ¬ Special (fs.inode (fs.file f).inode).sector

variable {tight : Prop} {fs fs' fs'' : FS} {files files' : List FilePtr}
  {held held' : List InodePtr}
  {i : InodePtr} {f : FilePtr} {dir : Dir} {s : Nat} {live' : Set Nat}

/-! ### The directory as it was -/

/-- The slots have the bytes they had. -/
def SameRoot (fs fs' : FS) : Prop := ∀ slot < rootSlots, fs.Copy slot (fs'.entry slot)

namespace SameRoot

theorem trans (first : SameRoot fs fs') (second : SameRoot fs' fs'') : SameRoot fs fs'' :=
  fun slot hi j hb => (second slot hi j hb).trans (first slot hi j hb)

theorem used (eq : SameRoot fs fs') (slot : Nat) : fs'.Used slot ↔ fs.Used slot := by
  unfold FS.Used
  refine and_congr_right fun hi => ?_
  rw [(eq slot hi).inUse]

theorem sector (eq : SameRoot fs fs') {slot : Nat} (used : fs.Used slot) :
    Entry.inodeSector (fs'.entry slot) = Entry.inodeSector (fs.entry slot) :=
  (eq slot used.1).inodeSector

theorem listed (eq : SameRoot fs fs') (s : Nat) : fs'.Listed s ↔ fs.Listed s := by
  unfold FS.Listed
  refine exists_congr fun slot => ?_
  rw [eq.used]
  refine and_congr_right fun used => ?_
  rw [eq.sector used]

theorem terminated (eq : SameRoot fs fs') (ends : fs.Terminated) : fs'.Terminated := by
  intro slot used
  obtain ⟨k, hs, zero⟩ := ends slot ((eq.used slot).mp used)
  refine ⟨k, hs, ?_⟩
  rw [eq slot used.1 (4 + k) (by unfold entrySize; unfold nameMax at hs; omega), zero]

end SameRoot

theorem FS.mem_live (fs : FS) (s : Nat) (known : Special s ∨ fs.Listed s) : s ∈ fs.live :=
  known.imp_right .inl

theorem FS.root_live (fs : FS) : rootDirSector ∈ fs.live := .inl (.inr rfl)

theorem FS.map_live (fs : FS) : freeMapSector ∈ fs.live := .inl (.inl rfl)

namespace Volume

section
variable (vol : Volume tight fs files held)
include vol

theorem root (ho : dir.inode ∈ fs.openInodes)
    (sector : (fs.inode dir.inode).sector = rootDirSector) : Root fs dir where
  data := by rw [(vol.sound.faithful _ ho).2, sector]
  length := vol.length
  placed := vol.sound.laid.placed fs.root_live

/-- The directory is as it was if its inode and its sectors are. -/
theorem sameRoot (inode : fs'.disk rootDirSector = fs.disk rootDirSector)
    (extent : ∀ x ∈ (fs.data rootDirSector).extent, fs'.disk x = fs.disk x) : SameRoot fs fs' := by
  intro slot hi j hb
  have data : fs'.data rootDirSector = fs.data rootDirSector := by rw [FS.data, FS.data, inode]
  unfold FS.entry
  rw [data]
  unfold FS.slot FS.byteAt
  rw [extent]
  refine (vol.sound.laid.placed fs.root_live).mem ?_
  rw [vol.length]
  unfold entrySize rootSlots at *
  omega

/-- The sectors of the free map are not those of the directory. -/
theorem map_apart :
    rootDirSector ∉ (fs.data freeMapSector).extent ∧
      Disjoint (fs.data rootDirSector).extent (fs.data freeMapSector).extent :=
  ⟨vol.sound.laid.apart _ fs.root_live _ fs.map_live,
    vol.sound.laid.disjoint _ fs.root_live _ fs.map_live (by decide)⟩

/-- What keeps the directory keeps the volume, if the files and inodes that are open suit it. -/
theorem move (sound : Sound tight fs' live' files' held')
    (inode : fs'.disk rootDirSector = fs.disk rootDirSector)
    (extent : ∀ x ∈ (fs.data rootDirSector).extent, fs'.disk x = fs.disk x)
    (live : ∀ s, Special s ∨ fs.Listed s → s ∈ live')
    (removed : ∀ i ∈ fs'.openInodes, (fs'.inode i).removed = true →
      ¬ Special (fs'.inode i).sector ∧ ¬ fs.Listed (fs'.inode i).sector)
    (clients : ∀ f ∈ files', fs'.freeMapFile ≠ some f →
      ¬ Special (fs'.inode (fs'.file f).inode).sector) : Volume tight fs' files' held' := by
  have same := vol.sameRoot inode extent
  constructor
  case sound =>
    refine sound.mono ?_ fun i ho => .inr (.inr ⟨i, ho, rfl⟩)
    rintro s (special | hl | ⟨i, ho, rfl⟩)
    · exact live s (.inl special)
    · exact live s (.inr ((same.listed s).mp hl))
    · exact (sound.faithful i ho).1
  case length => rw [FS.data, inode]; exact vol.length
  case ends => exact same.terminated vol.ends
  case ordinary => exact fun s hl => vol.ordinary s ((same.listed s).mp hl)
  case once =>
    intro slot slot' used used' eq
    rw [same.used] at used used'
    rw [same.sector used, same.sector used'] at eq
    exact vol.once slot slot' used used' eq
  case removed =>
    intro i ho is
    rw [same.listed]
    exact removed i ho is
  case clients => exact clients

theorem quiet (hq : Quiet fs fs') : Volume tight fs' files held := by
  have hs := vol.sound.quiet hq
  obtain ⟨memory, rfl⟩ := hq.eq
  exact vol.move hs rfl (fun _ _ => rfl) fs.mem_live vol.removed vol.clients

end

/-! ### Inodes and files -/

theorem opens (vol : Volume tight fs files held) (hs : Sound tight fs' fs.live files (i :: held))
    (ho : Opens fs fs' i s) : Volume tight fs' files (i :: held) := by
  have disk : fs'.disk = fs.disk := by rw [ho.kept]
  have file : fs'.file = fs.file := by rw [ho.kept]
  have freeMapFile : fs'.freeMapFile = fs.freeMapFile := by rw [ho.kept]
  refine vol.move hs (by rw [disk]) (fun _ _ => by rw [disk]) fs.mem_live (fun j hj is => ?_)
    fun f hf ne => ?_
  · by_cases old : j ∈ fs.openInodes
    · rw [FS.view_removed (ho.same j old)] at is
      rw [FS.view_sector (ho.same j old)]
      exact vol.removed j old is
    · obtain rfl := ((ho.members j).mp hj).resolve_right old
      simp [ho.fresh old] at is
  · rw [freeMapFile] at ne
    rw [file, FS.view_sector (ho.same _ (vol.sound.counted.file_opened hf))]
    exact vol.clients f hf ne

theorem shuts (vol : Volume tight fs files held) (mem : i ∈ held)
    (shuts : Shuts tight fs fs' fs.live files held i) : Volume tight fs' files (held.erase i) := by
  obtain ⟨hc, gone, stays⟩ := shuts
  obtain ⟨ha, disjoint⟩ := vol.map_apart
  have ho := vol.sound.counted.held_opened mem
  have inode : fs'.disk rootDirSector = fs.disk rootDirSector := hc.disk _ ha
  have extent : ∀ x ∈ (fs.data rootDirSector).extent, fs'.disk x = fs.disk x :=
    fun x hx => hc.disk x (Set.disjoint_left.mp disjoint hx)
  have removed : ∀ j ∈ fs'.openInodes, (fs'.inode j).removed = true →
      ¬ Special (fs'.inode j).sector ∧ ¬ fs.Listed (fs'.inode j).sector := by
    intro j hj is
    rw [FS.view_removed (hc.same j)] at is
    rw [FS.view_sector (hc.same j)]
    exact vol.removed j ((hc.members j).mp hj).1 is
  have clients : ∀ f ∈ files, fs'.freeMapFile ≠ some f →
      ¬ Special (fs'.inode (fs'.file f).inode).sector := by
    intro f hf ne
    have file : fs'.file = fs.file := by rw [hc.kept]
    have freeMapFile : fs'.freeMapFile = fs.freeMapFile := by rw [hc.kept]
    rw [file, FS.view_sector (hc.same _)]
    exact vol.clients f hf (freeMapFile ▸ ne)
  by_cases leaves : fs.Last files held i ∧ (fs.inode i).removed = true
  · obtain ⟨special, hu⟩ := vol.removed i ho leaves.2
    refine vol.move (gone leaves.1 leaves.2) inode extent (fun s known => ?_) removed clients
    refine ⟨fs.mem_live s known, ?_⟩
    rintro rfl
    exact known.elim special hu
  · exact vol.move (stays leaves) inode extent fs.mem_live removed clients

/-- Files are opened, closed or changed, and the inodes stay. -/
theorem refiles (vol : Volume tight fs files held) (hs : Sound tight fs' fs.live files' held')
    (refiles : Refiles fs fs')
    (clients : ∀ f ∈ files', fs.freeMapFile ≠ some f → ¬ Special
      (fs.inode (fs'.file f).inode).sector) :
    Volume tight fs' files' held' := by
  have disk : fs'.disk = fs.disk := by rw [refiles.kept]
  have openInodes : fs'.openInodes = fs.openInodes := by rw [refiles.kept]
  have freeMapFile : fs'.freeMapFile = fs.freeMapFile := by rw [refiles.kept]
  refine vol.move hs (by rw [disk]) (fun _ _ => by rw [disk]) fs.mem_live (fun j hj is => ?_)
    fun f hf ne => ?_
  · rw [FS.view_removed (refiles.same j)] at is
    rw [FS.view_sector (refiles.same j)]
    exact vol.removed j (openInodes ▸ hj) is
  · rw [FS.view_sector (refiles.same _)]
    exact clients f hf (freeMapFile ▸ ne)

end Volume

/-- The device and the free map are as they were. -/
@[grind cases] structure Reads (fs fs' : FS) : Prop where
  size : fs'.size = fs.size
  disk : fs'.disk = fs.disk
  bits : fs'.bits = fs.bits
  freeMapFile : fs'.freeMapFile = fs.freeMapFile
  plenty : Plenty fs → Plenty fs'
  order : ∀ older, fs.Ordered older → fs'.Ordered older

theorem Reads.refl (fs : FS) : Reads fs fs := ⟨rfl, rfl, rfl, rfl, id, fun _ => id⟩

theorem Reads.trans (first : Reads fs fs') (second : Reads fs' fs'') : Reads fs fs'' :=
  ⟨second.size.trans first.size, second.disk.trans first.disk, second.bits.trans first.bits,
    second.freeMapFile.trans first.freeMapFile, second.plenty ∘ first.plenty,
    fun ho => second.order ho ∘ first.order ho⟩

theorem Quiet.readsOnly (hq : Quiet fs fs') : Reads fs fs' := by
  have room := hq.plenty
  obtain ⟨memory, rfl⟩ := hq.eq
  exact ⟨rfl, rfl, rfl, rfl, room, fun _ ordered => ⟨ordered.sublist, ordered.known⟩⟩

theorem Opens.readsOnly (ho : Opens fs fs' i s) : Reads fs fs' :=
  ⟨by rw [ho.kept], by rw [ho.kept], by rw [ho.kept], by rw [ho.kept], ho.plenty,
    ho.order⟩

theorem Refiles.readsOnly (refiles : Refiles fs fs') : Reads fs fs' := by
  refine ⟨by rw [refiles.kept], by rw [refiles.kept], by rw [refiles.kept], by rw [refiles.kept],
    refiles.plenty, fun ho ordered => ?_⟩
  rw [refiles.kept]
  exact ⟨ordered.sublist, ordered.known⟩

theorem Closes.readsOnly (hc : Closes fs fs' files held i) (stays : (fs.inode i).removed = false) :
    Reads fs fs' := by
  obtain ⟨disk, bits⟩ := hc.otherwise fun leaves => by simp [leaves.2] at stays
  refine ⟨by rw [hc.kept], disk, bits, by rw [hc.kept], hc.plenty, fun ho ordered => ?_⟩
  refine ⟨(hc.sublist.filter _).trans ordered.sublist, ?_⟩
  rw [show fs'.inodes = fs.inodes by rw [hc.kept]]
  exact ordered.known

/-- The same inodes are open, in the same order and as often. -/
structure SameInodes (fs fs' : FS) : Prop where
  openInodes : fs'.openInodes = fs.openInodes
  openCnt : ∀ i ∈ fs.openInodes, (fs'.inode i).openCnt = (fs.inode i).openCnt

/-- If all pointers to inodes that were taken have been given up again. -/
theorem Reads.sameInodes (reads : Reads fs fs') (was : Counted fs files held)
    (after : Counted fs' files held) (file : ∀ p ∈ files, fs'.file p = fs.file p) :
    SameInodes fs fs' := by
  have refs : fs'.refs files held = fs.refs files held := by
    funext i
    unfold FS.refs
    rw [countP_congr fun p mem => by rw [file p mem]]
  have members : ∀ i, i ∈ fs'.openInodes ↔ i ∈ fs.openInodes := by
    intro i
    rw [after.opened, was.opened, refs]
  have ordered := reads.order fs.openInodes ⟨filter_sublist, was.known⟩
  have sublist := ordered.sublist
  rw [filter_eq_self.mpr fun i mem => by simpa using (members i).mp mem] at sublist
  have length : fs'.openInodes.length = fs.openInodes.length :=
    ((perm_ext_iff_of_nodup after.nodup was.nodup).mpr members).length_eq
  refine ⟨sublist.eq_of_length length, fun i mem => ?_⟩
  rw [after.count i ((members i).mpr mem), was.count i mem, refs]

/-- The files are as they were too, and so are the inodes that were open. -/
@[grind cases] structure Looks (fs fs' : FS) : Prop where
  reads : Reads fs fs'
  file : fs'.file = fs.file
  same : ∀ j ∈ fs.openInodes, fs'.view j = fs.view j

theorem Looks.quiet (looks : Looks fs fs') (hq : Quiet fs' fs'') : Looks fs fs'' := by
  have reads := looks.reads.trans hq.readsOnly
  obtain ⟨memory, rfl⟩ := hq.eq
  exact ⟨reads, looks.file, looks.same⟩

theorem Opens.looks (ho : Opens fs fs' i s) : Looks fs fs' :=
  ⟨ho.readsOnly, by rw [ho.kept], ho.same⟩

theorem Looks.closes (looks : Looks fs fs') (hc : Closes fs' fs'' files held i)
    (stays : (fs'.inode i).removed = false) : Looks fs fs'' :=
  ⟨looks.reads.trans (hc.readsOnly stays), by rw [hc.kept, looks.file],
    fun j ho => (hc.same j).trans (looks.same j ho)⟩

/-! ### The functions of the file system -/

theorem wp_volumeOpen (vol : Volume tight fs files held) (known : Special s ∨ fs.Listed s) :
    Wp (inodeOpen s) (fun r fs' => Reads fs fs' ∧ match r with
      | none => Volume tight fs' files held ∧ Quiet fs fs' ∧ ¬ Plenty fs
      | some i => Volume tight fs' files (i :: held) ∧ Opens fs fs' i s ∧
          (fs'.inode i).removed = false) fs := by
  refine (wp_inodeOpen vol.sound (fs.mem_live s known)).mono fun r fs' h => ?_
  cases r with
  | none => exact ⟨h.1.readsOnly, vol.quiet h.1, h⟩
  | some i =>
    obtain ⟨hs, ho⟩ := h
    refine ⟨ho.readsOnly, vol.opens hs ho, ho, ?_⟩
    by_cases old : i ∈ fs.openInodes
    · rw [FS.view_removed (ho.same i old)]
      have sector : (fs.inode i).sector = s :=
        (FS.view_sector (ho.same i old)).symm.trans ho.sector
      refine Bool.eq_false_iff.mpr fun is => ?_
      obtain ⟨special, hu⟩ := vol.removed i old is
      rw [sector] at special hu
      exact known.elim special hu
    · exact ho.fresh old

theorem wp_dirOpenRoot (vol : Volume tight fs files held) :
    Wp dirOpenRoot (fun r fs' => Looks fs fs' ∧ match r with
      | none => Volume tight fs' files held ∧ ¬ Plenty fs
      | some dir => Volume tight fs' files (dir.inode :: held) ∧
          (fs'.inode dir.inode).sector = rootDirSector ∧ dir.pos = 0) fs := by
  refine .bind ((wp_volumeOpen vol (.inl (.inr rfl))).mono fun r fs1 ⟨reads, ho⟩ => ?_)
  refine .bind (wp_malloc.mono fun ok fs2 ⟨hq, he⟩ => ?_)
  cases r with
  | none =>
    have looks : Looks fs fs := ⟨.refl fs, rfl, fun _ _ => rfl⟩
    exact .bind (.pure (.pure ⟨(looks.quiet ho.2.1).quiet hq, ho.1.quiet hq, ho.2.2⟩))
  | some i =>
    obtain ⟨vol1, opens, stays⟩ := ho
    have vol2 := vol1.quiet hq
    have looks2 := opens.looks.quiet hq
    cases ok with
    | true =>
      refine .pure ⟨looks2, vol2, ?_, rfl⟩
      rw [show fs2.inode = fs1.inode by rw [hq.kept], opens.sector]
    | false =>
      refine .bind ((wp_inodeClose vol2.sound (.head _)).mono fun _ fs3 shuts => .pure ?_)
      have stays2 : (fs2.inode i).removed = false := by rw [hq.kept]; exact stays
      have after := vol2.shuts (.head _) shuts
      rw [erase_cons_head] at after
      exact ⟨looks2.closes shuts.closes stays2, after,
        fun room => nomatch he (reads.plenty room)⟩

theorem wp_dirClose (vol : Volume tight fs files held) (mem : dir.inode ∈ held)
    (sector : (fs.inode dir.inode).sector = rootDirSector) :
    Wp (dirClose (some dir)) (fun _ fs' => Reads fs fs' ∧
      Volume tight fs' files (held.erase dir.inode) ∧ Closes fs fs' files held dir.inode) fs := by
  refine (wp_inodeClose vol.sound mem).mono fun _ fs' shuts => ?_
  refine ⟨shuts.closes.readsOnly ?_, vol.shuts mem shuts, shuts.closes⟩
  refine Bool.eq_false_iff.mpr fun is => ?_
  exact (vol.removed _ (vol.sound.counted.held_opened mem) is).1 (.inr sector)

/-- A file opened by name is on the inode of the first slot with that name. -/
structure Found (fs fs' : FS) (files : List FilePtr) (name : CString) (f : FilePtr) (slot : Nat) :
    Prop where
  fresh : f ∉ files
  others : ∀ p ∈ files, fs'.file p = fs.file p
  file : fs'.file f = { inode := (fs'.file f).inode }
  matched : fs.Matches slot name
  first : ∀ m < slot, ¬ fs.Matches m name
  sector : (fs'.inode (fs'.file f).inode).sector = Entry.inodeSector (fs.entry slot)

theorem Reads.entry (reads : Reads fs fs') : fs'.entry = fs.entry := by
  funext slot j
  simp only [FS.entry, FS.slot, FS.data, FS.byteAt, reads.disk]

theorem Reads.matched (reads : Reads fs fs') (slot : Nat) (name : CString) :
    fs'.Matches slot name ↔ fs.Matches slot name := by
  simp only [FS.Matches, FS.Used, reads.entry]

theorem wp_dirLookup (vol : Volume tight fs files held) (mem : dir.inode ∈ held)
    (sector : (fs.inode dir.inode).sector = rootDirSector) (name : CString) :
    Wp (dirLookup dir name) (fun r fs' => Reads fs fs' ∧ fs'.file = fs.file ∧ match r with
      | none => Volume tight fs' files held ∧ (Plenty fs → ∀ m, ¬ fs.Matches m name) ∧
          (fs'.inode dir.inode).sector = rootDirSector
      | some i => Volume tight fs' files (i :: held) ∧ (fs'.inode i).removed = false ∧
          (fs'.inode dir.inode).sector = rootDirSector ∧
          ∃ slot, fs.Matches slot name ∧ (∀ m < slot, ¬ fs.Matches m name) ∧
            (fs'.inode i).sector = Entry.inodeSector (fs.entry slot)) fs := by
  have ho := vol.sound.counted.held_opened mem
  refine .bind ((wp_lookup (vol.root ho sector) vol.ends name).mono ?_)
  rintro r fs1 ⟨hq, res⟩
  have vol1 := vol.quiet hq
  have inode1 : fs1.inode = fs.inode := by rw [hq.kept]
  have sector1 : (fs1.inode dir.inode).sector = rootDirSector := inode1 ▸ sector
  cases r with
  | none => exact .pure ⟨hq.readsOnly, by rw [hq.kept], vol1, res, sector1⟩
  | some found =>
    obtain ⟨e, ofs⟩ := found
    obtain ⟨slot, _, hit, copy, first⟩ := res
    have hl : fs1.Listed (Entry.inodeSector e) := by
      refine ⟨slot, ((hq.readsOnly.matched slot name).mpr hit).1, ?_⟩
      rw [hq.entry, copy.inodeSector]
    refine (wp_volumeOpen vol1 (.inr hl)).mono fun r fs2 ⟨reads, res⟩ => ?_
    refine ⟨hq.readsOnly.trans reads, ?_⟩
    cases r with
    | none => grind
    | some i =>
      obtain ⟨vol2, opens, stays⟩ := res
      have opened1 := vol1.sound.counted.held_opened mem
      refine ⟨by rw [opens.kept, hq.kept], vol2, stays,
        (FS.view_sector (opens.same _ opened1)).trans sector1, slot, hit, first, ?_⟩
      rw [opens.sector, copy.inodeSector]

theorem wp_fileOpen_none : Wp (fileOpen none) (fun r fs' => r = none ∧ Quiet fs fs') fs :=
  .bind (wp_malloc.mono fun _ _ h => .bind (.pure (.pure ⟨rfl, h.1⟩)))

theorem wp_filesysOpen (vol : Volume tight fs files held) (name : CString) :
    Wp (filesysOpen name) (fun r fs' => Reads fs fs' ∧ (∀ p ∈ files, fs'.file p = fs.file p) ∧
      match r with
      | none => Volume tight fs' files held ∧ (Plenty fs → ∀ m, ¬ fs.Matches m name)
      | some f => Volume tight fs' (f :: files) held ∧ ∃ slot, Found fs fs' files name f slot)
          fs := by
  -- nothing was found, or memory was short
  have fails : ∀ {fs1}, Reads fs fs1 → fs1.file = fs.file → Volume tight fs1 files held →
      (Plenty fs → ∀ m, ¬ fs.Matches m name) → Wp (fileOpen none) (fun r fs' => Reads fs fs' ∧
        (∀ p ∈ files, fs'.file p = fs.file p) ∧ match r with
        | none => Volume tight fs' files held ∧ (Plenty fs → ∀ m, ¬ fs.Matches m name)
        | some f => Volume tight fs' (f :: files) held ∧ ∃ slot, Found fs fs' files name f slot)
            fs1 := by
    intro fs1 reads file vol1 missing
    refine wp_fileOpen_none.mono ?_
    rintro r fs' ⟨rfl, hq⟩
    refine ⟨reads.trans hq.readsOnly, fun p _ => ?_, vol1.quiet hq, missing⟩
    rw [hq.kept, file]
  refine .bind ((wp_dirOpenRoot vol).mono fun r fs1 ⟨⟨reads1, file1, _⟩, res⟩ => ?_)
  cases r with
  | none =>
    obtain ⟨vol1, short⟩ := res
    exact .bind (.pure (.bind (.pure (fails reads1 file1 vol1 fun room => absurd room short))))
  | some dir =>
    obtain ⟨vol1, sector1, _⟩ := res
    refine .bind ((wp_dirLookup vol1 (.head _) sector1 name).mono
      fun r fs2 ⟨reads2, file2, res⟩ => ?_)
    have reads := reads1.trans reads2
    cases r with
    | none =>
      obtain ⟨vol2, missing, sector2⟩ := res
      refine .bind ((wp_dirClose vol2 (.head _) sector2).mono
        fun _ fs3 ⟨reads3, vol3, hc⟩ => ?_)
      rw [erase_cons_head] at vol3
      have file3 : fs3.file = fs.file := by rw [hc.kept, file2, file1]
      refine fails (reads.trans reads3) file3 vol3 fun room m hit => ?_
      exact missing (reads1.plenty room) m ((reads1.matched m name).mpr hit)
    | some i =>
      obtain ⟨vol2, stays, sector2, slot, hit, first, sector⟩ := res
      have ordinary : ¬ Special (fs2.inode i).sector :=
        sector ▸ vol1.ordinary _ ⟨slot, hit.1, rfl⟩
      have ne : i ≠ dir.inode := by
        rintro rfl
        exact ordinary (.inr sector2)
      refine .bind ((wp_dirClose vol2 (.tail _ (.head _)) sector2).mono
        fun _ fs3 ⟨reads3, vol3, hc⟩ => ?_)
      rw [erase_cons_tail (by simpa using ne), erase_cons_head] at vol3
      have stays3 : (fs3.inode i).removed = false := (FS.view_removed (hc.same i)).trans stays
      have sector3 : (fs3.inode i).sector = (fs2.inode i).sector := FS.view_sector (hc.same i)
      have file3 : fs3.file = fs.file := by rw [hc.kept, file2, file1]
      have reads' := reads.trans reads3
      refine (wp_fileOpen vol3.sound (.head _)).mono fun r fs' res => ?_
      cases r with
      | none =>
        obtain ⟨short, shuts⟩ := res
        have vol' := vol3.shuts (.head _) shuts
        rw [erase_cons_head] at vol'
        refine ⟨reads'.trans (shuts.closes.readsOnly stays3), fun p _ => ?_, vol',
          fun room => absurd (reads'.plenty room) short⟩
        rw [shuts.closes.kept, file3]
      | some f =>
        obtain ⟨hs, new⟩ := res
        rw [erase_cons_head] at hs
        have inode : (fs'.file f).inode = i := by rw [new.file]
        have others : ∀ p ∈ files, fs'.file p = fs.file p :=
          fun p hp => by rw [new.others p hp, file3]
        refine ⟨reads'.trans new.refiles.readsOnly, others, vol3.refiles hs new.refiles ?_, slot,
          ?_⟩
        · grind
        · refine ⟨new.fresh, others, ?_, (reads1.matched slot name).mp hit, fun m before => ?_, ?_⟩
          · rw [inode, new.file]
          · exact mt (reads1.matched m name).mpr (first m before)
          · rw [inode, FS.view_sector (new.refiles.same i), sector3, sector, reads1.entry]

end Pintos.Filesys
